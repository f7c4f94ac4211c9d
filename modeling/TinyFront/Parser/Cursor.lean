import TinyFront.Parser.Failure

/-!
Reading from a list of tokens. A cursor stands on a token and never leaves the last one; a parser
moves it and answers with a value or a failure, and in both cases says where it stopped.
Main statements: parsers form a lawful monad, and advancing shortens what is left.
-/
namespace TinyFront

structure Cursor where
  current : Token
  rest : List Token
  /-- Where the last consumed token ended. -/
  lastEnd : Int
  deriving DecidableEq, Repr

namespace Cursor

/-- The cursor on the first token. Nothing is consumed yet, so the end is that token's start. -/
def ofTokens? : List Token → Option Cursor
  | [] => none
  | t :: ts => some ⟨t, ts, t.span.start⟩

def isAt (k : TokenKind) (c : Cursor) : Bool := c.current.kind == k

/-- The last token stays under the cursor when it is consumed. -/
def advance (c : Cursor) : Cursor :=
  match c.rest with
  | [] => { c with lastEnd := c.current.span.stop }
  | t :: ts => ⟨t, ts, c.current.span.stop⟩

@[simp] theorem advance_lastEnd (c : Cursor) : c.advance.lastEnd = c.current.span.stop := by
  unfold advance; split <;> rfl

def remaining (c : Cursor) : List Token := c.current :: c.rest

end Cursor

inductive Outcome (α : Type)
  | done (value : α) (next : Cursor)
  | failed (failure : Failure) (stopped : Cursor)

/-- A parser knows the name of the file that the spans of new nodes are in. -/
def Parser (α : Type) := (file : String) → Cursor → Outcome α

namespace Parser

variable {α β γ : Type}

instance : Monad Parser where
  pure a := fun _ c => .done a c
  bind p k := fun file c =>
    match p file c with
    | .done a next => k a file next
    | .failed e stopped => .failed e stopped

@[simp] theorem pure_apply (a : α) (file : String) (c : Cursor) :
    (pure a : Parser α) file c = .done a c := rfl

theorem bind_apply (p : Parser α) (k : α → Parser β) (file : String) (c : Cursor) :
    (p >>= k) file c =
      match p file c with
      | .done a next => k a file next
      | .failed e stopped => .failed e stopped := rfl

@[simp] theorem bind_done {p : Parser α} {k : α → Parser β} {file : String} {c next : Cursor}
    {a : α} (h : p file c = .done a next) : (p >>= k) file c = k a file next := by
  simp [bind_apply, h]

@[simp] theorem bind_failed {p : Parser α} {k : α → Parser β} {file : String} {c stopped : Cursor}
    {e : Failure} (h : p file c = .failed e stopped) : (p >>= k) file c = .failed e stopped := by
  simp [bind_apply, h]

instance : LawfulMonad Parser := LawfulMonad.mk' _
  (fun p => by
    funext file c
    show (match p file c with
      | .done a next => Outcome.done a next
      | .failed e stopped => .failed e stopped) = p file c
    cases p file c <;> rfl)
  (fun _ _ => rfl)
  (fun p k l => by
    funext file c
    simp only [bind_apply]
    cases p file c <;> rfl)

def fail (e : Failure) : Parser α := fun _ c => .failed e c

/-- The token under the cursor, left where it is. -/
def current : Parser Token := fun _ c => .done c.current c

def start : Parser Int := fun _ c => .done c.current.span.start c

def test (p : Cursor → Bool) : Parser Bool := fun _ c => .done (p c) c

/-- Consumes the token under the cursor, whatever it is. -/
def advance : Parser Token := fun _ c => .done c.current c.advance

/-- The span from a given offset to the end of the last consumed token. -/
def close : Parser (Int → Span) := fun file c => .done (fun start => ⟨file, start, c.lastEnd⟩) c

def spanFrom (start : Int) : Parser Span := fun file c => .done ⟨file, start, c.lastEnd⟩ c

/-- Refuses the token under the cursor. -/
def reject (category : Category) (cause : Cause) : Parser α :=
  fun _ c => .failed (.rejected ⟨cause, category, c.current.span⟩) c

def unexpected (category : Category) (expected : Expected) : Parser α :=
  fun _ c =>
    .failed (.rejected ⟨.unexpected expected c.current.kind c.current.text, category,
      c.current.span⟩) c

def tooDeep (category : Category) : Parser α := reject category .nestingTooDeep

def expect (category : Category) (k : TokenKind) : Parser Token := do
  if ← test (·.isAt k) then advance else unexpected category (.kind k)

/-- Consumes the delimiter that closes an earlier one. At the end of the input the earlier one is
reported as unclosed. -/
def expectClosing (category : Category) (opener closer : TokenKind) : Parser Token := do
  if ← test (·.isAt closer) then advance
  else if ← test (·.isAt .eof) then reject category (.unclosed opener closer)
  else unexpected category (.kind closer)

/-- The span of what the parser consumes, from the token it begins on. -/
def located (p : Parser (Span → α)) : Parser α := do
  let s ← start
  let build ← p
  return build (← spanFrom s)

/-- A value together with the way to close a span right behind it. -/
def closing (p : Parser α) : Parser (α × (Int → Span)) := do
  let a ← p
  return (a, ← close)

/-- At most `bound` items, for as long as the cursor is where an item starts. -/
def manyUpTo (starts : Cursor → Bool) (item : Parser α) : (bound : Nat) → Parser (List α)
  | 0 => return []
  | bound + 1 => do
    if ← test starts then
      let a ← item
      return a :: (← manyUpTo starts item bound)
    else return []

/-- Items one after the other. Each consumes a token, so there are no more than tokens left. -/
def many (starts : Cursor → Bool) (item : Parser α) : Parser (List α) :=
  fun file c => manyUpTo starts item c.remaining.length file c

/-- Items separated by commas, up to the closer or the end of the input; the flag tells whether a
comma follows the last one. -/
def commasUpTo (closer : TokenKind) (item : Parser α) : (bound : Nat) → Parser (List α × Bool)
  | 0 => return ([], false)
  | bound + 1 => do
    if ← test fun c => c.isAt closer || c.isAt .eof then return ([], false)
    else
      let a ← item
      if ← test (·.isAt .comma) then
        let _ ← advance
        let (as, trailing) ← commasUpTo closer item bound
        return (a :: as, trailing || as.isEmpty)
      else return ([a], false)

def commas (closer : TokenKind) (item : Parser α) : Parser (List α × Bool) :=
  fun file c => commasUpTo closer item c.remaining.length file c

end Parser
end TinyFront
