import TinyFront.Parser.Expr
import TinyFront.Tree.Decl

/-!
Declarations of functions and types.
-/
namespace TinyFront.Parser

section

variable (block : Parser (Expr Span)) (pattern : Parser (Pattern Span)) (type : Parser (Ty Span))

def param : Parser (Param Span) := located do
  let _ ← advance
  let p ← pattern
  let _ ← expect .declaration .colon
  let t ← type
  let _ ← expectClosing .declaration .lparen .rparen
  return (⟨p, t, ·⟩)

def returnType : Parser (Option (Ty Span)) := do
  if ← test (·.isAt .colon) then
    let _ ← advance
    return some (← type)
  else return none

def fnDecl : Parser (Decl Span) := located do
  let _ ← advance
  let name ← expect .declaration .identifier
  let params ← many (·.isAt .lparen) (param pattern type)
  let result ← returnType type
  let body ← block
  return .fn name.text params result body

def variant (atomicType : Parser (Ty Span)) : Parser (Variant Span) := located do
  let name ← expect .declaration .typeIdentifier
  let args ← many Family.type.startsAtom atomicType
  return (⟨name.text, args, ·⟩)

/-- Each variant stands behind a bar of its own. -/
def sum (atomicType : Parser (Ty Span)) : Parser (TypeBody Span) := do
  return .sum (← many (·.isAt .pipe) do let _ ← advance; variant atomicType)

def field : Parser (Field Span) := located do
  let name ← expect .declaration .identifier
  let _ ← expect .declaration .colon
  let t ← type
  return (⟨name.text, t, ·⟩)

def product : Parser (TypeBody Span) := do
  let _ ← advance
  let (fields, _) ← commas .rbrace (field type)
  let _ ← expectClosing .declaration .lbrace .rbrace
  return .product fields

def typeBody (atomicType : Parser (Ty Span)) (name : String) : Parser (TypeBody Span) := do
  if ← test (·.isAt .pipe) then sum atomicType
  else if ← test (·.isAt .lbrace) then product type
  else reject .declaration (.incompleteDeclaration name)

def typeDecl (atomicType : Parser (Ty Span)) : Parser (Decl Span) := located do
  let _ ← advance
  let name ← expect .declaration .typeIdentifier
  let params ← many (·.isAt .identifier) advance
  let _ ← expect .declaration .assign
  let body ← typeBody type atomicType name.text
  return .type name.text (params.map (·.text)) body

def declarationWithin (atomicType : Parser (Ty Span)) : Parser (Decl Span) := do
  let t ← current
  match t.kind with
  | .kwFn => fnDecl block pattern type
  | .kwType => typeDecl type atomicType
  | _ => unexpected .declaration .declarationStart

end

def declaration (depth : Nat) : Parser (Decl Span) :=
  declarationWithin (block (expression depth) (pattern depth)) (pattern depth) (type depth)
    (atom .type (type depth))

/-- Declarations up to the end of the input. The span of a program begins at offset zero. -/
def program (depth : Nat) : Parser (Program Span) := do
  let decls ← many (fun c => !c.isAt .eof) (declaration depth)
  let last ← current
  return ⟨decls, ← (fun file c => .done ⟨file, 0, last.span.stop⟩ c)⟩

end TinyFront.Parser
