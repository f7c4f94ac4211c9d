import TinyFront.Parser.Pattern

/-!
Expressions. Infix operators are read by climbing over binding powers; applications, field accesses
and records are read left to right. As for types, the index of `expression` bounds how much deeper
the input may nest.
-/
namespace TinyFront

/-- How tightly an operator token binds its left and its right operand. The right power is the
greater one, so operators of one tier group to the left. -/
def TokenKind.powers? : TokenKind → Option (Nat × Nat)
  | .plus | .minus => some (1, 2)
  | .star | .slash => some (3, 4)
  | _ => none

namespace Parser

/-- An infix operator, its right operand, and how to close the spans behind each of them. -/
structure Operation where
  operator : Operator
  operatorSpan : Span
  operatorEnd : Int → Span
  operand : Expr Span
  operandEnd : Int → Span

namespace Operation

/-- `left op right` is the application of `op left` to `right`. -/
def apply (start : Int) (left : Expr Span) (o : Operation) : Expr Span :=
  .apply (.apply (.leaf (.name o.operator.name) o.operatorSpan) left (o.operatorEnd start))
    o.operand (o.operandEnd start)

end Operation

def bindsAtLeast (power : Nat) (c : Cursor) : Bool :=
  match c.current.kind.powers? with
  | some (left, _) => power ≤ left
  | none => false

def rightPower (k : TokenKind) : Nat := (k.powers?.map (·.2)).getD 0

/-- An operator token whose text is no operator stops the reading right behind it. -/
def operator : Parser (Operator × Token) := do
  let t ← advance
  match Operator.ofSymbol? t.text with
  | some o => return (o, t)
  | none => fail (.unknownOperator t.text)

/-- Operands joined by operators that bind at least as tightly as `power`. A right operand admits
only tighter ones, so with two tiers of operators there are at most two climbs. -/
def climb (operand : Parser (Expr Span)) : (climbs power : Nat) → Parser (Expr Span)
  | 0, _ => operand
  | climbs + 1, power => do
    let s ← start
    let first ← operand
    let operations ← many (bindsAtLeast power) do
      let ((o, t), operatorEnd) ← closing operator
      let (right, operandEnd) ← closing (climb operand climbs (rightPower t.kind))
      return (⟨o, t.span, operatorEnd, right, operandEnd⟩ : Operation)
    return operations.foldl (Operation.apply s) first

def tiers : Nat := 2

/-- What may follow an operand: a field, or the fields of a new record. -/
inductive Suffix
  | field (name : String)
  | record (fields : List (FieldValue Span))

def Suffix.apply (start : Int) (e : Expr Span) : Suffix × (Int → Span) → Expr Span
  | (field n, spanAt) => .access e n (spanAt start)
  | (record fs, spanAt) => .record e fs (spanAt start)

/-- A brace with a name and an equals sign behind it opens a record and never a block. -/
def startsRecord (c : Cursor) : Bool :=
  c.isAt .lbrace &&
    match c.rest with
    | n :: e :: _ => n.kind == .identifier && e.kind == .assign
    | _ => false

def startsSuffix (c : Cursor) : Bool := c.isAt .dot || startsRecord c

section

/-! The readers of a part of an expression, over those of what nests in it. -/

variable (inner : Parser (Expr Span)) (pattern : Parser (Pattern Span)) (type : Parser (Ty Span))

def fieldValue : Parser (FieldValue Span) := located do
  let name ← expect .expression .identifier
  let _ ← expect .expression .assign
  let value ← inner
  return (⟨name.text, value, ·⟩)

def suffix : Parser Suffix := do
  let t ← advance
  if t.kind = .dot then return .field (← expect .expression .identifier).text
  else
    let (fields, _) ← commas .rbrace (fieldValue inner)
    let _ ← expectClosing .expression .lbrace .rbrace
    return .record fields

def withSuffixes (operand : Parser (Expr Span)) : Parser (Expr Span) := do
  let s ← start
  let e ← operand
  let suffixes ← many startsSuffix (closing (suffix inner))
  return suffixes.foldl (Suffix.apply s) e

def clause : Parser (Clause Span) := located do
  let p ← pattern
  let _ ← expect .expression .fatArrow
  let body ← inner
  return (⟨p, body, ·⟩)

def caseOf : Parser (Expr Span) := located do
  let _ ← advance
  let scrutinee ← inner
  let _ ← expect .expression .lbrace
  let (clauses, _) ← commas .rbrace (clause inner pattern)
  let _ ← expectClosing .expression .lbrace .rbrace
  return .caseOf scrutinee clauses

def lambda : Parser (Expr Span) := located do
  let _ ← advance
  let param ← expect .expression .identifier
  let _ ← expect .expression .pipe
  let body ← inner
  return .lambda param.text body

def statement : Parser (Statement Span) := located do
  if ← test (·.isAt .kwLet) then
    let _ ← advance
    let p ← pattern
    let _ ← expect .expression .assign
    let value ← inner
    return .bind p value
  else
    let e ← inner
    return .expr e

/-- Statements separated by semicolons; one may follow the last. -/
def statementsUpTo : (bound : Nat) → Parser (List (Statement Span))
  | 0 => return []
  | bound + 1 => do
    let s ← statement inner pattern
    if ← test (·.isAt .semicolon) then
      let _ ← advance
      if ← test fun c => c.isAt .rbrace || c.isAt .eof then return [s]
      else return s :: (← statementsUpTo bound)
    else return [s]

def statements : Parser (List (Statement Span)) := fun file c =>
  statementsUpTo inner pattern c.remaining.length file c

/-- Empty braces have the value unit. -/
def emptyBlock (s : Span) : Expr Span := .block [.expr (.leaf .unit s) s] s

def block : Parser (Expr Span) := located do
  let _ ← expect .expression .lbrace
  if ← test (·.isAt .eof) then reject .expression (.unclosed .lbrace .rbrace)
  else if ← test (·.isAt .rbrace) then
    let _ ← advance
    return emptyBlock
  else
    let ss ← statements inner pattern
    let _ ← expectClosing .expression .lbrace .rbrace
    return .block ss

def ifLet : Parser (Expr Span) := located do
  let _ ← advance
  let _ ← expect .expression .kwLet
  let p ← pattern
  let _ ← expect .expression .assign
  let scrutinee ← inner
  let thenBlock ← block inner pattern
  let _ ← expect .expression .kwElse
  let elseBlock ← block inner pattern
  return .ifLet p scrutinee thenBlock elseBlock

def primary : Parser (Expr Span) := do
  let t ← current
  match t.kind with
  | .pipe => lambda inner
  | .kwIf => ifLet inner pattern
  | .kwMatch => caseOf inner pattern
  | .lbrace => block inner pattern
  | _ =>
    if ← test Family.expression.startsAtom then atom .expression inner
    else unexpected .expression (.category .expression)

/-- An argument is an atom with its suffixes; only the callee may be any other form. -/
def application : Parser (Expr Span) := do
  let s ← start
  let callee ← withSuffixes inner (primary inner pattern)
  let arguments ← many Family.expression.startsAtom
    (closing (withSuffixes inner (atom .expression inner)))
  return arguments.foldl (fun callee (argument, spanAt) => .apply callee argument (spanAt s)) callee

def expressionWithin : Parser (Expr Span) := do
  let s ← start
  let e ← climb (application inner pattern) tiers 0
  if ← test (·.isAt .colon) then
    let _ ← advance
    let t ← type
    return .ascribe e t (← spanFrom s)
  else return e

end

def expression : (depth : Nat) → Parser (Expr Span)
  | 0 => tooDeep .expression
  | depth + 1 => expressionWithin (expression depth) (pattern (depth + 1)) (type (depth + 1))

end Parser
end TinyFront
