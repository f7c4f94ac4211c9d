import TinyFront.Tree.Pattern

/-!
Expressions, with the clauses, field values and statements inside them. Main statements: `map`
respects composition, and a bare expression keeps no trace of the places it had.
-/
namespace TinyFront

mutual

inductive Expr (σ : Type)
  | leaf (leaf : Leaf) (span : σ)
  | tuple (elements : List (Expr σ)) (span : σ)
  | apply (callee argument : Expr σ) (span : σ)
  | lambda (param : String) (body : Expr σ) (span : σ)
  | caseOf (scrutinee : Expr σ) (clauses : List (Clause σ)) (span : σ)
  | ifLet (pattern : Pattern σ) (scrutinee thenBlock elseBlock : Expr σ) (span : σ)
  | access (receiver : Expr σ) (field : String) (span : σ)
  | ascribe (expr : Expr σ) (type : Ty σ) (span : σ)
  | record (constructor : Expr σ) (fields : List (FieldValue σ)) (span : σ)
  | block (statements : List (Statement σ)) (span : σ)

structure Clause (σ : Type) where
  pattern : Pattern σ
  body : Expr σ
  span : σ

structure FieldValue (σ : Type) where
  name : String
  value : Expr σ
  span : σ

inductive Statement (σ : Type)
  | bind (pattern : Pattern σ) (value : Expr σ) (span : σ)
  | expr (expr : Expr σ) (span : σ)

end

instance {σ : Type} [Inhabited σ] : Inhabited (Expr σ) := ⟨.leaf .unit default⟩

variable {σ τ υ : Type}

def Expr.span : Expr σ → σ
  | .leaf _ s | .tuple _ s | .apply _ _ s | .lambda _ _ s | .caseOf _ _ s | .ifLet _ _ _ _ s
  | .access _ _ s | .ascribe _ _ s | .record _ _ s | .block _ s => s

def Statement.span : Statement σ → σ
  | .bind _ _ s | .expr _ s => s

mutual

def Expr.map (f : σ → τ) : Expr σ → Expr τ
  | .leaf l s => .leaf l (f s)
  | .tuple es s => .tuple (Expr.mapAll f es) (f s)
  | .apply c a s => .apply (c.map f) (a.map f) (f s)
  | .lambda p b s => .lambda p (b.map f) (f s)
  | .caseOf e cs s => .caseOf (e.map f) (Clause.mapAll f cs) (f s)
  | .ifLet p e t l s => .ifLet (p.map f) (e.map f) (t.map f) (l.map f) (f s)
  | .access e n s => .access (e.map f) n (f s)
  | .ascribe e t s => .ascribe (e.map f) (t.map f) (f s)
  | .record e fs s => .record (e.map f) (FieldValue.mapAll f fs) (f s)
  | .block ss s => .block (Statement.mapAll f ss) (f s)

def Expr.mapAll (f : σ → τ) : List (Expr σ) → List (Expr τ)
  | [] => []
  | e :: es => e.map f :: Expr.mapAll f es

def Clause.mapAll (f : σ → τ) : List (Clause σ) → List (Clause τ)
  | [] => []
  | ⟨p, e, s⟩ :: cs => ⟨p.map f, e.map f, f s⟩ :: Clause.mapAll f cs

def FieldValue.mapAll (f : σ → τ) : List (FieldValue σ) → List (FieldValue τ)
  | [] => []
  | ⟨n, e, s⟩ :: fs => ⟨n, e.map f, f s⟩ :: FieldValue.mapAll f fs

def Statement.mapAll (f : σ → τ) : List (Statement σ) → List (Statement τ)
  | [] => []
  | .bind p e s :: ss => .bind (p.map f) (e.map f) (f s) :: Statement.mapAll f ss
  | .expr e s :: ss => .expr (e.map f) (f s) :: Statement.mapAll f ss

end

def Clause.map (f : σ → τ) (c : Clause σ) : Clause τ := ⟨c.pattern.map f, c.body.map f, f c.span⟩

def FieldValue.map (f : σ → τ) (d : FieldValue σ) : FieldValue τ := ⟨d.name, d.value.map f, f d.span⟩

def Statement.map (f : σ → τ) : Statement σ → Statement τ
  | .bind p e s => .bind (p.map f) (e.map f) (f s)
  | .expr e s => .expr (e.map f) (f s)

theorem Expr.mapAll_eq_map (f : σ → τ) (es : List (Expr σ)) :
    Expr.mapAll f es = es.map (Expr.map f) := by
  induction es with
  | nil => rfl
  | cons e es ih => simp [Expr.mapAll, ih]

theorem Clause.mapAll_eq_map (f : σ → τ) (cs : List (Clause σ)) :
    Clause.mapAll f cs = cs.map (Clause.map f) := by
  induction cs with
  | nil => rfl
  | cons c cs ih => cases c; simp [Clause.mapAll, Clause.map, ih]

theorem FieldValue.mapAll_eq_map (f : σ → τ) (fs : List (FieldValue σ)) :
    FieldValue.mapAll f fs = fs.map (FieldValue.map f) := by
  induction fs with
  | nil => rfl
  | cons d fs ih => cases d; simp [FieldValue.mapAll, FieldValue.map, ih]

theorem Statement.mapAll_eq_map (f : σ → τ) (ss : List (Statement σ)) :
    Statement.mapAll f ss = ss.map (Statement.map f) := by
  induction ss with
  | nil => rfl
  | cons s ss ih => cases s <;> simp [Statement.mapAll, Statement.map, ih]

@[simp] theorem Expr.map_span (f : σ → τ) (e : Expr σ) : (e.map f).span = f e.span := by
  cases e <;> rfl

mutual

theorem Expr.map_map (f : σ → τ) (g : τ → υ) : ∀ e : Expr σ, (e.map f).map g = e.map (g ∘ f)
  | .leaf _ _ => rfl
  | .tuple es s => by simp [Expr.map, Expr.mapAll_mapAll f g es]
  | .apply c a s => by simp [Expr.map, Expr.map_map f g c, Expr.map_map f g a]
  | .lambda p b s => by simp [Expr.map, Expr.map_map f g b]
  | .caseOf e cs s => by simp [Expr.map, Expr.map_map f g e, Clause.mapAll_mapAll f g cs]
  | .ifLet p e t l s => by
    simp [Expr.map, Pattern.map_map, Expr.map_map f g e, Expr.map_map f g t, Expr.map_map f g l]
  | .access e n s => by simp [Expr.map, Expr.map_map f g e]
  | .ascribe e t s => by simp [Expr.map, Ty.map_map, Expr.map_map f g e]
  | .record e fs s => by simp [Expr.map, Expr.map_map f g e, FieldValue.mapAll_mapAll f g fs]
  | .block ss s => by simp [Expr.map, Statement.mapAll_mapAll f g ss]

theorem Expr.mapAll_mapAll (f : σ → τ) (g : τ → υ) :
    ∀ es : List (Expr σ), Expr.mapAll g (Expr.mapAll f es) = Expr.mapAll (g ∘ f) es
  | [] => rfl
  | e :: es => by simp [Expr.mapAll, Expr.map_map f g e, Expr.mapAll_mapAll f g es]

theorem Clause.mapAll_mapAll (f : σ → τ) (g : τ → υ) :
    ∀ cs : List (Clause σ), Clause.mapAll g (Clause.mapAll f cs) = Clause.mapAll (g ∘ f) cs
  | [] => rfl
  | ⟨p, e, s⟩ :: cs => by
    simp [Clause.mapAll, Pattern.map_map, Expr.map_map f g e, Clause.mapAll_mapAll f g cs]

theorem FieldValue.mapAll_mapAll (f : σ → τ) (g : τ → υ) :
    ∀ fs : List (FieldValue σ),
      FieldValue.mapAll g (FieldValue.mapAll f fs) = FieldValue.mapAll (g ∘ f) fs
  | [] => rfl
  | ⟨n, e, s⟩ :: fs => by
    simp [FieldValue.mapAll, Expr.map_map f g e, FieldValue.mapAll_mapAll f g fs]

theorem Statement.mapAll_mapAll (f : σ → τ) (g : τ → υ) :
    ∀ ss : List (Statement σ),
      Statement.mapAll g (Statement.mapAll f ss) = Statement.mapAll (g ∘ f) ss
  | [] => rfl
  | .bind p e s :: ss => by
    simp [Statement.mapAll, Pattern.map_map, Expr.map_map f g e, Statement.mapAll_mapAll f g ss]
  | .expr e s :: ss => by
    simp [Statement.mapAll, Expr.map_map f g e, Statement.mapAll_mapAll f g ss]

end

def Expr.bare (e : Expr σ) : Expr Unit := e.map fun _ => ()

@[simp] theorem Expr.bare_map (f : σ → τ) (e : Expr σ) : (e.map f).bare = e.bare :=
  Expr.map_map f (fun _ => ()) e

def Clause.bare (c : Clause σ) : Clause Unit := c.map fun _ => ()

def FieldValue.bare (d : FieldValue σ) : FieldValue Unit := d.map fun _ => ()

def Statement.bare (s : Statement σ) : Statement Unit := s.map fun _ => ()

end TinyFront
