import TinyFront.Format.Layout
import TinyFront.Tree.Decl

/-!
The canonical layout of trees. Parentheses stand only where reading would group differently
without them: around an expression that binds more loosely than its context asks, around an
argument that is no atom, around a constructor with arguments inside another, and around arrows
and applications inside types. Places have no part in it.
-/
namespace TinyFront

open Mark

namespace Leaf

def word : Leaf → List Mark
  | wildcard => [lexeme "_"]
  | number n => [lexeme (toString n)]
  | boolean b => [lexeme (if b then "true" else "false")]
  | name s => [lexeme s]
  | unit => [lexeme "(", lexeme ")"]

end Leaf

variable {σ τ : Type}

namespace Pattern

mutual

def marks (nested : Bool) : Pattern σ → List Mark
  | leaf l _ => l.word
  | tuple ps _ => Mark.tuple (marksAll false ps)
  | constructor n [] _ => [lexeme n]
  | constructor n ps _ => enclosed nested (lexeme n :: gapped (marksAll true ps))

def marksAll (nested : Bool) : List (Pattern σ) → List (List Mark)
  | [] => []
  | p :: ps => p.marks nested :: marksAll nested ps

end
end Pattern

inductive TypeContext
  | top | domain | argument
  deriving DecidableEq, Repr

namespace Ty

mutual

def marks (context : TypeContext) : Ty σ → List Mark
  | leaf l _ => l.word
  | tuple ts _ => Mark.tuple (marksAll .top ts)
  | var n _ => [lexeme n]
  | app n ts _ =>
    enclosed (context == .argument) (lexeme n :: gap :: separated [gap] (marksAll .argument ts))
  | arrow d c _ =>
    enclosed (context != .top) (marks .domain d ++ [gap, lexeme "->", gap] ++ marks .top c)
  | quantified bs t _ =>
    enclosed (context != .top)
      (lexeme "forall" :: gapped (bs.map fun b => [lexeme b]) ++ [lexeme ".", gap] ++ marks .top t)

def marksAll (context : TypeContext) : List (Ty σ) → List (List Mark)
  | [] => []
  | t :: ts => t.marks context :: marksAll context ts

end
end Ty

/-- How tightly a laid-out expression holds together. -/
inductive Strength
  | top | additive | multiplicative | application | primary
  deriving DecidableEq, Repr

namespace Strength

def rank : Strength → Nat
  | top => 0 | additive => 1 | multiplicative => 2 | application => 3 | primary => 4

def weaker (a b : Strength) : Bool := a.rank < b.rank

@[simp] theorem weaker_top (a : Strength) : a.weaker top = false := by cases a <;> rfl

@[simp] theorem primary_weaker (b : Strength) : primary.weaker b = false := by cases b <;> rfl

end Strength

namespace Operator

def strength : Operator → Strength
  | add | sub => .additive
  | mul | div => .multiplicative

/-- A right operand of the same strength would have been grouped to the left. -/
def rightStrength : Operator → Strength
  | add | sub => .multiplicative
  | mul | div => .application

end Operator

namespace Expr

/-- An operator name applied to two arguments is laid out as an infix operation. -/
def operation? : Expr σ → Option (Operator × Expr σ × Expr σ)
  | apply (apply (leaf (.name n) _) l _) r _ => (Operator.ofName? n).map (·, l, r)
  | _ => none

def strength (e : Expr σ) : Strength :=
  match e.operation? with
  | some (o, _, _) => o.strength
  | none =>
    match e with
    | apply _ _ _ => .application
    | lambda _ _ _ | ascribe _ _ _ => .top
    | _ => .primary

/-- Atoms, and what is selected from or built on an atom, are arguments as they stand. -/
def isArgument : Expr σ → Bool
  | leaf _ _ | tuple _ _ => true
  | access e _ _ => e.isArgument
  | record e _ _ => e.isArgument
  | _ => false

end Expr

/-- A block of nothing but the unit value. -/
def isUnitBlock : List (Statement σ) → Bool
  | [.expr (.leaf .unit _) _] => true
  | _ => false

mutual

/-- The marks of an expression without parentheses around it, on a line nested `depth` deep. -/
def Expr.marks (depth : Nat) : Expr σ → List Mark
  | .leaf l _ => l.word
  | .tuple es _ => Mark.tuple (Expr.marksAll depth es)
  | .apply (.apply (.leaf (.name n) u) l v) r _ =>
    match Operator.ofName? n with
    | some o =>
      enclosed (l.strength.weaker o.strength) (l.marks depth) ++ [gap, lexeme o.symbol, gap] ++
        enclosed (r.strength.weaker o.rightStrength) (r.marks depth)
    | none =>
      (Expr.apply (.leaf (.name n) u) l v).marks depth ++
        gap :: enclosed (!r.isArgument) (r.marks depth)
  | .apply c a _ =>
    enclosed (c.strength.weaker .application) (c.marks depth) ++
      gap :: enclosed (!a.isArgument) (a.marks depth)
  | .lambda p b _ => [lexeme "|", lexeme p, lexeme "|", gap] ++ b.marks depth
  | .caseOf e [] _ => lexeme "match" :: gap :: e.marks depth ++ [gap, lexeme "\x7b", lexeme "\x7d"]
  | .caseOf e cs _ =>
    lexeme "match" :: gap :: e.marks depth ++ [gap, lexeme "\x7b"] ++ Clause.marksAll depth cs ++
      [line depth, lexeme "\x7d"]
  | .ifLet p e t l _ =>
    [lexeme "if", gap, lexeme "let", gap] ++ p.marks false ++ [gap, lexeme "=", gap] ++
      e.marks depth ++ gap :: t.marks depth ++ [gap, lexeme "else", gap] ++ l.marks depth
  | .access e n _ =>
    enclosed (e.strength.weaker .primary) (e.marks depth) ++ [lexeme ".", lexeme n]
  | .ascribe e t _ =>
    enclosed (e.strength.weaker .additive) (e.marks depth) ++ [gap, lexeme ":", gap] ++ t.marks .top
  | .record e fs _ =>
    enclosed (e.strength.weaker .primary) (e.marks depth) ++ [gap, lexeme "\x7b", gap] ++
      separated comma (FieldValue.marksAll depth fs) ++ [gap, lexeme "\x7d"]
  | .block ss _ =>
    if isUnitBlock ss then [lexeme "\x7b", lexeme "\x7d"]
    else
      [lexeme "\x7b", line (depth + 1)] ++
        separated [lexeme ";", line (depth + 1)] (Statement.marksAll (depth + 1) ss) ++
        [line depth, lexeme "\x7d"]

def Expr.marksAll (depth : Nat) : List (Expr σ) → List (List Mark)
  | [] => []
  | e :: es => e.marks depth :: Expr.marksAll depth es

/-- Each clause is on a line of its own, and a comma follows the last one too. -/
def Clause.marksAll (depth : Nat) : List (Clause σ) → List Mark
  | [] => []
  | ⟨p, e, _⟩ :: cs =>
    line (depth + 1) :: p.marks false ++ [gap, lexeme "=>", gap] ++ e.marks (depth + 1) ++
      lexeme "," :: Clause.marksAll depth cs

def FieldValue.marksAll (depth : Nat) : List (FieldValue σ) → List (List Mark)
  | [] => []
  | ⟨n, e, _⟩ :: fs =>
    (lexeme n :: gap :: lexeme "=" :: gap :: e.marks depth) :: FieldValue.marksAll depth fs

def Statement.marksAll (depth : Nat) : List (Statement σ) → List (List Mark)
  | [] => []
  | .bind p e _ :: ss =>
    ([lexeme "let", gap] ++ p.marks false ++ [gap, lexeme "=", gap] ++ e.marks depth) ::
      Statement.marksAll depth ss
  | .expr e _ :: ss => e.marks depth :: Statement.marksAll depth ss

end

/-- A pattern with its type, as parameters show them. -/
def typedMarks (p : Pattern σ) (t : Ty σ) : List Mark :=
  p.marks false ++ [gap, lexeme ":", gap] ++ t.marks .top

def Param.marks (p : Param σ) : List Mark := enclosed true (typedMarks p.pattern p.type)

def Variant.marks (v : Variant σ) : List Mark :=
  [lexeme "|", gap, lexeme v.name] ++ gapped (Ty.marksAll .argument v.args)

def Field.marks (d : Field σ) : List Mark :=
  [lexeme d.name, gap, lexeme ":", gap] ++ d.type.marks .top

def TypeBody.marks : TypeBody σ → List Mark
  | .sum vs => separated [gap] (vs.map Variant.marks)
  | .product [] => [lexeme "\x7b", lexeme "\x7d"]
  | .product ds =>
    [lexeme "\x7b", gap] ++ separated comma (ds.map Field.marks) ++ [gap, lexeme "\x7d"]

def Decl.marks : Decl σ → List Mark
  | .fn n ps r b _ =>
    [lexeme "fn", gap, lexeme n] ++ gapped (ps.map Param.marks) ++
      (match r with
        | some t => [gap, lexeme ":", gap] ++ t.marks .top
        | none => []) ++
      gap :: b.marks 0
  | .type n ps b _ =>
    [lexeme "type", gap, lexeme n] ++ gapped (ps.map fun p => [lexeme p]) ++
      [gap, lexeme "=", gap] ++ b.marks

/-- One blank line stands between declarations, and a line feed behind the last one. -/
def Program.marks (p : Program σ) : List Mark :=
  match p.decls with
  | [] => []
  | ds => separated [line 0, line 0] (ds.map Decl.marks) ++ [line 0]

def Tree.marks : Tree σ → List Mark
  | .program p => p.marks
  | .expression e => e.marks 0
  | .pattern p => p.marks false
  | .type t => t.marks .top

def Program.format (indent : Nat) (p : Program σ) : String := Mark.text indent p.marks

def Tree.format (indent : Nat) (t : Tree σ) : String := Mark.text indent t.marks

/-- Levels of nesting are indented by four blanks unless something else is asked for. -/
def standardIndent : Nat := 4

end TinyFront
