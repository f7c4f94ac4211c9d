import TinyFront.Source.Span

/-!
Diagnostics: a message with a code, the places it is about, and notes.
-/
namespace TinyFront

inductive Severity
  | error | warning | note
  deriving DecidableEq, Repr

namespace Severity

def text : Severity → String
  | error => "error" | warning => "warning" | note => "note"

def ofText? (s : String) : Option Severity := [error, warning, note].find? (·.text == s)

end Severity

/-- A place, with a remark that may be empty. -/
structure Label where
  span : Span
  message : String
  deriving DecidableEq, Repr

structure Diagnostic where
  severity : Severity
  code : String
  message : String
  labels : List Label
  notes : List String
  deriving DecidableEq, Repr

namespace Diagnostic

/-- One line for a whole batch: how many there are, then each message. -/
def summary (ds : List Diagnostic) : String :=
  toString ds.length ++ " error(s): " ++ String.intercalate "; " (ds.map (·.message))

def shift (distance : Int) (d : Diagnostic) : Diagnostic :=
  { d with labels := d.labels.map fun l => { l with span := l.span.shift distance } }

end Diagnostic
end TinyFront
