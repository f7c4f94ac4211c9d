import TinyFront.Parser.Cursor
import TinyFront.Text.Capital
import TinyFront.Tree.Pattern
import TinyFront.Tree.Expr

/-!
Atoms: wildcards, numbers, truth values, names, and parenthesised sequences. Expressions, patterns
and types read them by the same rules and build their own nodes from them.
-/
namespace TinyFront

/-- What the shared rules need to know about a family of trees. -/
structure Family (ε : Type) where
  category : Category
  booleans : Bool
  ofLeaf : Leaf → Span → ε
  ofTuple : List ε → Span → ε

namespace Family

def expression : Family (Expr Span) := ⟨.expression, true, .leaf, .tuple⟩

/-- A name that begins with a capital is always a constructor. -/
def patternOfLeaf : Leaf → Span → Pattern Span
  | .name n, s =>
    if n.toList.head?.any Text.isCapital then .constructor n [] s else .leaf (.name n) s
  | l, s => .leaf l s

def pattern : Family (Pattern Span) := ⟨.pattern, true, patternOfLeaf, .tuple⟩

def typeOfLeaf : Leaf → Span → Ty Span
  | .name n, s => .var n s
  | l, s => .leaf l s

def type : Family (Ty Span) := ⟨.type, false, typeOfLeaf, .tuple⟩

variable {ε : Type}

/-- Whether an atom of the family starts at the token under the cursor. -/
def startsAtom (f : Family ε) (c : Cursor) : Bool :=
  match c.current.kind with
  | .underscore | .integer | .identifier | .typeIdentifier | .lparen => true
  | .boolean => f.booleans
  | _ => false

end Family

def decimalValue (ds : List Char) : Nat := ds.foldl (fun n d => 10 * n + (d.toNat - '0'.toNat)) 0

def isDecimal (ds : List Char) : Bool := !ds.isEmpty && ds.all Char.isDigit

namespace Parser

variable {ε : Type}

/-- The largest value of a number, which takes 64 bits. -/
def maxNumber : Nat := 18446744073709551615

/-- The number that a consumed token denotes. A text too long to be read is no rejection. -/
def number (category : Category) (t : Token) : Parser Nat :=
  let digits := t.text.toList
  let malformed : Failure := .rejected ⟨.malformedLiteral t.text, category, t.span⟩
  if isDecimal digits then
    if digitLimit < digits.length then fail (.literalTooLong digits.length)
    else if decimalValue digits ≤ maxNumber then return decimalValue digits
    else fail malformed
  else fail malformed

def leaf (f : Family ε) : Parser Leaf := do
  let t ← current
  match t.kind with
  | .underscore => let _ ← advance; return .wildcard
  | .integer => let _ ← advance; return .number (← number f.category t)
  | .identifier | .typeIdentifier => let _ ← advance; return .name t.text
  | .boolean =>
    if f.booleans then let _ ← advance; return .boolean (t.text == "true")
    else unexpected f.category (.category f.category)
  | _ => unexpected f.category (.category f.category)

/-- A single element without a comma stands for itself; otherwise the parentheses make a unit or a
tuple. -/
def collapse (f : Family ε) (elements : List ε) (trailing : Bool) (s : Span) : ε :=
  match elements, trailing with
  | [e], false => e
  | [], _ => f.ofLeaf .unit s
  | es, _ => f.ofTuple es s

def parenthesised (f : Family ε) (element : Parser ε) : Parser ε := located do
  let _ ← advance
  let (elements, trailing) ← commas .rparen element
  let _ ← expectClosing f.category .lparen .rparen
  return collapse f elements trailing

def atom (f : Family ε) (element : Parser ε) : Parser ε := do
  let t ← current
  if t.kind = .lparen then parenthesised f element
  else return f.ofLeaf (← leaf f) t.span

end Parser
end TinyFront
