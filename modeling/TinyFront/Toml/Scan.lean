import TinyFront.Toml.Draft

/-!
Scanning the characters of a TOML document. A scan takes characters from the front of what is
unread, or refuses the document.
-/
namespace TinyFront.Toml

abbrev Scan := StateT (List Char) (Except Refusal)

/-- Blanks within a line. -/
def isSpace (c : Char) : Bool := c == ' ' || c == '\t'

def isSpaceOrFeed (c : Char) : Bool := isSpace c || c == '\n'

/-- Control characters stand nowhere but in escapes; the tab is not counted among them, and the
line feed only where a text ends with its line. -/
def isControl (multiline : Bool) (c : Char) : Bool :=
  (c.toNat < 32 && c != '\t' && !(multiline && c == '\n')) || c.toNat == 127

namespace Scan

variable {α : Type}

def refuse : Scan α := throw .malformed

/-- A scan that refuses where the function has no answer. -/
def ofReader (read : List Char → Option (α × List Char)) : Scan α := fun unread =>
  match read unread with
  | some (a, rest) => .ok (a, rest)
  | none => .error .malformed

def head? : Scan (Option Char) := do return (← get).head?

def skip (p : Char → Bool) : Scan Unit := modify (·.dropWhile p)

/-- Takes the text if what is unread starts with it. -/
def accept (text : String) : Scan Bool := do
  if text.toList.isPrefixOf (← get) then
    modify (·.drop text.toList.length)
    return true
  else return false

def expect (text : String) : Scan Unit := do
  if ← accept text then return () else refuse

/-- A comment up to the end of its line, if there is one. -/
def comment : Scan Unit := do
  let unread ← get
  if unread.head? = some '#' then
    if (unread.takeWhile (· != '\n')).any (isControl false) then refuse
    else skip (· != '\n')

/-- At most `bound` stretches of blanks and line feeds, each with a comment at its end. -/
def gapsUpTo : (bound : Nat) → Scan Unit
  | 0 => return ()
  | bound + 1 => do
    skip isSpaceOrFeed
    if (← head?) = some '#' then
      comment
      gapsUpTo bound

/-- All that may stand between the elements of an array. -/
def gaps : Scan Unit := do gapsUpTo ((← get).length + 1)

end Scan
end TinyFront.Toml
