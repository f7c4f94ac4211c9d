import TinyFront.Diagnostic.Basic
import TinyFront.Editor.Range
import TinyFront.Parser.Reader

/-!
An open document: its text together with what reading it has shown. Main statement: a document
has a program exactly when there is nothing to notify the user of.
-/
namespace TinyFront.Editor

/-- A diagnostic as an editor shows it. -/
structure Notice where
  range : Range
  severity : Severity
  code : Option String
  message : String
  deriving DecidableEq, Repr

/-- The number that editors know a severity by. -/
def severityCode : Severity → Nat
  | .error => 1
  | .warning => 2
  | .note => 3

def noticeOrigin : String := "atiny"

namespace Notice

/-- The first label gives the range, and notes follow the message in parentheses. -/
def ofDiagnostic (source : Source) (d : Diagnostic) : Notice :=
  { range := match d.labels with
      | [] => .zero
      | l :: _ => .ofSpan source l.span
    severity := d.severity
    code := some d.code
    message := "[" ++ d.code ++ "] " ++ d.message ++
      (if d.notes.isEmpty then "" else " (" ++ String.intercalate "; " d.notes ++ ")") }

/-- What cannot be shown beside the source is reported at its very beginning. -/
def ofFailure (source : Source) (e : Failure) : Notice :=
  match e.diagnostic? with
  | some d => ofDiagnostic source d
  | none => ⟨.zero, .error, none, "[internal] parser error: " ++ e.message⟩

end Notice

structure Document where
  source : Source
  tokens : List Token
  program : Option (Program Span)
  notices : List Notice

namespace Document

def name (d : Document) : String := d.source.name

/-- Tokens are kept even where they form no program. -/
def ofText (name text : String) : Document :=
  let source : Source := ⟨name, text⟩
  match lex name text with
  | .error reports => ⟨source, [], none, reports.map (Notice.ofDiagnostic source)⟩
  | .ok tokens =>
    match (Parser.program Parser.maxDepth).run (some name) tokens with
    | .ok p => ⟨source, tokens, some p, []⟩
    | .error e => ⟨source, tokens, none, [.ofFailure source e]⟩

@[simp] theorem source_ofText (name text : String) : (ofText name text).source = ⟨name, text⟩ := by
  simp only [ofText]
  split
  · rfl
  · split <;> rfl

@[simp] theorem name_ofText (name text : String) : (ofText name text).name = name := by
  simp [Document.name]

theorem ne_nil_of_lex_error {name text : String} {reports : List Diagnostic}
    (h : lex name text = .error reports) : reports ≠ [] := by
  simp only [lex] at h
  split at h
  · contradiction
  · next hne => injection h with h; subst h; simpa using hne

theorem program_isSome_iff (name text : String) :
    (ofText name text).program.isSome = true ↔ (ofText name text).notices = [] := by
  simp only [ofText]
  split
  · next h => simp [ne_nil_of_lex_error h]
  · split <;> simp

end Document
end TinyFront.Editor
