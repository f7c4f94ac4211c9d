import TinyFront.Tree.Expr

/-!
Declarations and programs, and the four sorts of tree a source can be read as.
-/
namespace TinyFront

structure Param (σ : Type) where
  pattern : Pattern σ
  type : Ty σ
  span : σ

structure Variant (σ : Type) where
  name : String
  args : List (Ty σ)
  span : σ

structure Field (σ : Type) where
  name : String
  type : Ty σ
  span : σ

inductive TypeBody (σ : Type)
  | sum (variants : List (Variant σ))
  | product (fields : List (Field σ))

inductive Decl (σ : Type)
  | fn (name : String) (params : List (Param σ)) (returnType : Option (Ty σ)) (body : Expr σ)
    (span : σ)
  | type (name : String) (params : List String) (body : TypeBody σ) (span : σ)

structure Program (σ : Type) where
  decls : List (Decl σ)
  span : σ

variable {σ τ υ : Type}

def Param.map (f : σ → τ) (p : Param σ) : Param τ := ⟨p.pattern.map f, p.type.map f, f p.span⟩

def Variant.map (f : σ → τ) (v : Variant σ) : Variant τ := ⟨v.name, v.args.map (Ty.map f), f v.span⟩

def Field.map (f : σ → τ) (d : Field σ) : Field τ := ⟨d.name, d.type.map f, f d.span⟩

def TypeBody.map (f : σ → τ) : TypeBody σ → TypeBody τ
  | .sum vs => .sum (vs.map (Variant.map f))
  | .product ds => .product (ds.map (Field.map f))

namespace Decl

def span : Decl σ → σ
  | fn _ _ _ _ s | type _ _ _ s => s

def name : Decl σ → String
  | fn n _ _ _ _ | type n _ _ _ => n

def map (f : σ → τ) : Decl σ → Decl τ
  | fn n ps r b s => fn n (ps.map (Param.map f)) (r.map (Ty.map f)) (b.map f) (f s)
  | type n ps b s => type n ps (b.map f) (f s)

@[simp] theorem map_span (f : σ → τ) (d : Decl σ) : (d.map f).span = f d.span := by
  cases d <;> rfl

@[simp] theorem map_name (f : σ → τ) (d : Decl σ) : (d.map f).name = d.name := by
  cases d <;> rfl

end Decl

def Program.map (f : σ → τ) (p : Program σ) : Program τ := ⟨p.decls.map (Decl.map f), f p.span⟩

def Param.bare (p : Param σ) : Param Unit := p.map fun _ => ()

def Variant.bare (v : Variant σ) : Variant Unit := v.map fun _ => ()

def Field.bare (d : Field σ) : Field Unit := d.map fun _ => ()

def TypeBody.bare (b : TypeBody σ) : TypeBody Unit := b.map fun _ => ()

def Decl.bare (d : Decl σ) : Decl Unit := d.map fun _ => ()

def Program.bare (p : Program σ) : Program Unit := p.map fun _ => ()

theorem Param.map_map (f : σ → τ) (g : τ → υ) (p : Param σ) : (p.map f).map g = p.map (g ∘ f) := by
  simp [Param.map, Pattern.map_map, Ty.map_map]

theorem Variant.map_map (f : σ → τ) (g : τ → υ) (v : Variant σ) :
    (v.map f).map g = v.map (g ∘ f) := by
  simp [Variant.map, Ty.map_map]

theorem Field.map_map (f : σ → τ) (g : τ → υ) (d : Field σ) : (d.map f).map g = d.map (g ∘ f) := by
  simp [Field.map, Ty.map_map]

theorem TypeBody.map_map (f : σ → τ) (g : τ → υ) (b : TypeBody σ) :
    (b.map f).map g = b.map (g ∘ f) := by
  cases b <;> simp [TypeBody.map, Variant.map_map, Field.map_map]

theorem Decl.map_map (f : σ → τ) (g : τ → υ) (d : Decl σ) : (d.map f).map g = d.map (g ∘ f) := by
  cases d with
  | fn n ps r b s => cases r <;> simp [Decl.map, Param.map_map, Ty.map_map, Expr.map_map]
  | type n ps b s => simp [Decl.map, TypeBody.map_map]

theorem Program.map_map (f : σ → τ) (g : τ → υ) (p : Program σ) :
    (p.map f).map g = p.map (g ∘ f) := by
  simp [Program.map, Decl.map_map]

/-- The four forms a source can be read in. -/
inductive Form
  | program | expression | pattern | type
  deriving DecidableEq, Repr

inductive Tree (σ : Type)
  | program (program : Program σ)
  | expression (expr : Expr σ)
  | pattern (pattern : Pattern σ)
  | type (type : Ty σ)

namespace Tree

def form : Tree σ → Form
  | program _ => .program
  | expression _ => .expression
  | pattern _ => .pattern
  | type _ => .type

def map (f : σ → τ) : Tree σ → Tree τ
  | program p => program (p.map f)
  | expression e => expression (e.map f)
  | pattern p => pattern (p.map f)
  | type t => type (t.map f)

@[simp] theorem map_form (f : σ → τ) (t : Tree σ) : (t.map f).form = t.form := by
  cases t <;> rfl

theorem map_map (f : σ → τ) (g : τ → υ) (t : Tree σ) : (t.map f).map g = t.map (g ∘ f) := by
  cases t <;> simp [map, Program.map_map, Expr.map_map, Pattern.map_map, Ty.map_map]

def bare (t : Tree σ) : Tree Unit := t.map fun _ => ()

@[simp] theorem bare_map (f : σ → τ) (t : Tree σ) : (t.map f).bare = t.bare :=
  map_map f (fun _ => ()) t

end Tree
end TinyFront
