import TinyFront.Proofs.RoundTrip
import TinyFront.Proofs.Slices

/-!
The nodes of a tree, and what it means for the span of a node to be exact.
-/
namespace TinyFront

variable {σ : Type}

mutual

def Pattern.inside : Pattern σ → List (Tree σ)
  | .leaf _ _ => []
  | .tuple ps _ | .constructor _ ps _ => Pattern.nodesAll ps

def Pattern.nodesAll : List (Pattern σ) → List (Tree σ)
  | [] => []
  | p :: ps => .pattern p :: p.inside ++ Pattern.nodesAll ps

end

def Pattern.nodes (p : Pattern σ) : List (Tree σ) := .pattern p :: p.inside

mutual

def Ty.inside : Ty σ → List (Tree σ)
  | .leaf _ _ | .var _ _ => []
  | .tuple ts _ | .app _ ts _ => Ty.nodesAll ts
  | .arrow d c _ => .type d :: d.inside ++ .type c :: c.inside
  | .quantified _ t _ => .type t :: t.inside

def Ty.nodesAll : List (Ty σ) → List (Tree σ)
  | [] => []
  | t :: ts => .type t :: t.inside ++ Ty.nodesAll ts

end

def Ty.nodes (t : Ty σ) : List (Tree σ) := .type t :: t.inside

mutual

def Expr.inside : Expr σ → List (Tree σ)
  | .leaf _ _ => []
  | .tuple es _ => Expr.nodesAll es
  | .apply c a _ => .expression c :: c.inside ++ .expression a :: a.inside
  | .lambda _ b _ => .expression b :: b.inside
  | .caseOf e cs _ => .expression e :: e.inside ++ Clause.nodesAll cs
  | .ifLet p e t l _ =>
    p.nodes ++ .expression e :: e.inside ++ .expression t :: t.inside ++ .expression l :: l.inside
  | .access e _ _ => .expression e :: e.inside
  | .ascribe e t _ => .expression e :: e.inside ++ t.nodes
  | .record e fs _ => .expression e :: e.inside ++ FieldValue.nodesAll fs
  | .block ss _ => Statement.nodesAll ss

def Expr.nodesAll : List (Expr σ) → List (Tree σ)
  | [] => []
  | e :: es => .expression e :: e.inside ++ Expr.nodesAll es

def Clause.nodesAll : List (Clause σ) → List (Tree σ)
  | [] => []
  | ⟨p, e, _⟩ :: cs => p.nodes ++ .expression e :: e.inside ++ Clause.nodesAll cs

def FieldValue.nodesAll : List (FieldValue σ) → List (Tree σ)
  | [] => []
  | ⟨_, e, _⟩ :: fs => .expression e :: e.inside ++ FieldValue.nodesAll fs

def Statement.nodesAll : List (Statement σ) → List (Tree σ)
  | [] => []
  | .bind p e _ :: ss => p.nodes ++ .expression e :: e.inside ++ Statement.nodesAll ss
  | .expr e _ :: ss => .expression e :: e.inside ++ Statement.nodesAll ss

end

def Expr.nodes (e : Expr σ) : List (Tree σ) := .expression e :: e.inside

def Clause.nodes (c : Clause σ) : List (Tree σ) := c.pattern.nodes ++ c.body.nodes

def FieldValue.nodes (d : FieldValue σ) : List (Tree σ) := d.value.nodes

def Statement.nodes : Statement σ → List (Tree σ)
  | .bind p e _ => p.nodes ++ e.nodes
  | .expr e _ => e.nodes

theorem Pattern.nodesAll_eq_flatMap (ps : List (Pattern σ)) :
    Pattern.nodesAll ps = ps.flatMap Pattern.nodes := by
  induction ps with
  | nil => rfl
  | cons p ps ih => simp [Pattern.nodesAll, Pattern.nodes, ih]

theorem Ty.nodesAll_eq_flatMap (ts : List (Ty σ)) : Ty.nodesAll ts = ts.flatMap Ty.nodes := by
  induction ts with
  | nil => rfl
  | cons t ts ih => simp [Ty.nodesAll, Ty.nodes, ih]

theorem Expr.nodesAll_eq_flatMap (es : List (Expr σ)) : Expr.nodesAll es = es.flatMap Expr.nodes := by
  induction es with
  | nil => rfl
  | cons e es ih => simp [Expr.nodesAll, Expr.nodes, ih]

theorem Clause.nodesAll_eq_flatMap (cs : List (Clause σ)) :
    Clause.nodesAll cs = cs.flatMap Clause.nodes := by
  induction cs with
  | nil => rfl
  | cons c cs ih =>
    obtain ⟨p, e, s⟩ := c
    simp [Clause.nodesAll, Clause.nodes, Expr.nodes, ih]

theorem FieldValue.nodesAll_eq_flatMap (fs : List (FieldValue σ)) :
    FieldValue.nodesAll fs = fs.flatMap FieldValue.nodes := by
  induction fs with
  | nil => rfl
  | cons d fs ih =>
    obtain ⟨n, e, s⟩ := d
    simp [FieldValue.nodesAll, FieldValue.nodes, Expr.nodes, ih]

theorem Statement.nodesAll_eq_flatMap (ss : List (Statement σ)) :
    Statement.nodesAll ss = ss.flatMap Statement.nodes := by
  induction ss with
  | nil => rfl
  | cons s ss ih => cases s <;> simp [Statement.nodesAll, Statement.nodes, Expr.nodes, ih]

def Param.nodes (p : Param σ) : List (Tree σ) := p.pattern.nodes ++ p.type.nodes

def Variant.nodes (v : Variant σ) : List (Tree σ) := v.args.flatMap Ty.nodes

def Field.nodes (d : Field σ) : List (Tree σ) := d.type.nodes

def TypeBody.nodes : TypeBody σ → List (Tree σ)
  | .sum vs => vs.flatMap Variant.nodes
  | .product ds => ds.flatMap Field.nodes

namespace Decl

/-- The program of this declaration alone. -/
def alone (d : Decl σ) : Tree σ := .program ⟨[d], d.span⟩

def inside : Decl σ → List (Tree σ)
  | fn _ ps r b _ => ps.flatMap Param.nodes ++ r.toList.flatMap Ty.nodes ++ b.nodes
  | type _ _ b _ => b.nodes

def nodes (d : Decl σ) : List (Tree σ) := d.alone :: d.inside

end Decl

namespace Tree

def span : Tree σ → σ
  | program p => p.span
  | expression e => e.span
  | pattern p => p.span
  | type t => t.span

@[simp] theorem map_span {τ : Type} (f : σ → τ) (t : Tree σ) : (t.map f).span = f t.span := by
  cases t with
  | program p => rfl
  | _ => simp [map, span]

/-- The expressions, patterns, types and declarations of a tree. A declaration stands for the program
that holds nothing else. -/
def subtrees : Tree σ → List (Tree σ)
  | program p => p.decls.flatMap Decl.nodes
  | expression e => e.nodes
  | pattern p => p.nodes
  | type t => t.nodes

end Tree

/-- The text that the span reaches over has these lexemes. -/
def Span.Covers (s : Span) (source : String) (xs : List Lexeme) : Prop :=
  ∃ text ts, s.Delimits source text ∧ lex s.file text = .ok ts ∧
    ts.map Token.lexeme = xs ++ [TokenKind.eof.lexeme]

namespace Tree

/-- Expressions that stand for tokens which do not spell them: the name of an infix operator, its
application to the left operand, and the unit value of an empty block. -/
inductive Synthetic (source : String) : Tree Span → Prop
  | operator (o : Operator) {s : Span} (h : s.Covers source [o.lexeme]) :
      Synthetic source (.expression (.leaf (.name o.name) s))
  | applied (o : Operator) {s s' : Span} {l : Expr Span} (h : s.Covers source [o.lexeme]) :
      Synthetic source (.expression (.apply (.leaf (.name o.name) s) l s'))
  | emptyBlock {s : Span}
      (h : s.Covers source [TokenKind.lbrace.lexeme, TokenKind.rbrace.lexeme]) :
      Synthetic source (.expression (.leaf .unit s))

/-- The text that the span of the tree reaches over is read as the same tree, moved to its
beginning. -/
structure Exact (file source : String) (t : Tree Span) : Prop where
  file_eq : t.span.file = file
  text : ∃ text, t.span.Delimits source text ∧
    ReadAs t.form file text (· = t.map (Span.shift (-t.span.start)))

end Tree
end TinyFront
