import TinyFront.Source.Span
import TinyFront.Token.Kind

/-!
Tokens: a kind, the text as written, and where it was written.
-/
namespace TinyFront

structure Token where
  kind : TokenKind
  text : String
  span : Span
  deriving DecidableEq, Repr, Inhabited

namespace Token

/-- What is left of a token when its place is forgotten. -/
def lexeme (t : Token) : TokenKind × String := (t.kind, t.text)

def shift (distance : Int) (t : Token) : Token := { t with span := t.span.shift distance }

@[simp] theorem shift_kind (d : Int) (t : Token) : (t.shift d).kind = t.kind := rfl

@[simp] theorem shift_text (d : Int) (t : Token) : (t.shift d).text = t.text := rfl

@[simp] theorem shift_span (d : Int) (t : Token) : (t.shift d).span = t.span.shift d := rfl

end Token
end TinyFront
