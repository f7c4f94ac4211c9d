import TinyFront.Diagnostic.Basic
import TinyFront.Text.Quoted
import TinyFront.Token.Basic

/-!
Why a token list is refused. A rejection is a matter of the language and has a place and a
diagnostic; the other failures say that the tokens cannot be read at all.
-/
namespace TinyFront

/-- What was being read when the list was refused. -/
inductive Category
  | expression | pattern | type | declaration
  deriving DecidableEq, Repr

def Category.text : Category → String
  | expression => "expression" | pattern => "pattern" | type => "type"
  | declaration => "declaration"

/-- What could have stood in the place of the refused token. -/
inductive Expected
  | kind (kind : TokenKind)
  | category (category : Category)
  | declarationStart
  deriving DecidableEq, Repr

def Expected.text : Expected → String
  | kind k => k.description
  | category c => c.text
  | declarationStart => "'fn' or 'type'"

inductive Cause
  | unexpected (expected : Expected) (kind : TokenKind) (text : String)
  | unclosed (opener closer : TokenKind)
  | malformedLiteral (text : String)
  | incompleteDeclaration (name : String)
  | nestingTooDeep
  deriving DecidableEq, Repr

namespace Cause

def code : Cause → String
  | unexpected _ _ _ => "E200"
  | unclosed _ _ => "E201"
  | malformedLiteral _ => "E202"
  | incompleteDeclaration _ => "E203"
  | nestingTooDeep => "E204"

/-- A refused token is named by its kind, and by its text where kinds have many spellings. -/
def found (kind : TokenKind) (text : String) : String :=
  if kind.showsText then kind.description ++ " " ++ Text.quote text else kind.description

def message : Cause → String
  | unexpected expected kind text => "expected " ++ expected.text ++ ", found " ++ found kind text
  | unclosed opener closer =>
    "unclosed " ++ opener.description ++ ": expected " ++ closer.description ++
      " before end of input"
  | malformedLiteral text =>
    "integer literal " ++ Text.quote text ++ " is not an unsigned 64-bit number"
  | incompleteDeclaration name =>
    "type " ++ name ++ " needs '|' constructors or a '\x7b' field list after '='"
  | nestingTooDeep => "input nests too deeply to parse"

end Cause

structure Rejection where
  cause : Cause
  category : Category
  span : Span
  deriving DecidableEq, Repr

namespace Rejection

def diagnostic (r : Rejection) : Diagnostic :=
  ⟨.error, r.cause.code, r.cause.message, [⟨r.span, ""⟩], ["while parsing " ++ r.category.text]⟩

/-- What is left of a rejection when its place is forgotten. -/
def reason (r : Rejection) : Cause × Category := (r.cause, r.category)

def shift (distance : Int) (r : Rejection) : Rejection :=
  { r with span := r.span.shift distance }

end Rejection

/-- The longest run of digits that is read as a number. -/
def digitLimit : Nat := 4300

inductive Failure
  | rejected (rejection : Rejection)
  | literalTooLong (digits : Nat)
  | unknownOperator (text : String)
  | noTokens
  deriving DecidableEq, Repr

namespace Failure

/-- Only rejections can be shown beside the source. -/
def diagnostic? : Failure → Option Diagnostic
  | rejected r => some r.diagnostic
  | _ => none

def tooLongMessage (digits : Nat) : String :=
  "Exceeds the limit (" ++ toString digitLimit ++
    " digits) for integer string conversion: value has " ++ toString digits ++
    " digits; use sys.set_int_max_str_digits() to increase the limit"

/-- One line for a reader who is shown no source. -/
def message : Failure → String
  | rejected r => r.cause.message
  | literalTooLong digits => tooLongMessage digits
  | unknownOperator text => "unknown operator " ++ Text.quote text
  | noTokens => "no tokens"

end Failure
end TinyFront
