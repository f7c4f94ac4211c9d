import TinyFront.Parser.Decl
import TinyFront.Token.Lex

/-!
Reading a token list, once or in several calls that go on where the last one stopped, and reading
a source text.
-/
namespace TinyFront

namespace Parser

/-- How deep the input may nest. -/
def maxDepth : Nat := 1000

/-- A tree of the given form. Anything but a program must be followed by the end of the input. -/
def tree (depth : Nat) : Form → Parser (Tree Span)
  | .program => return .program (← program depth)
  | .expression => do
    let e ← expression depth
    let _ ← atEnd .expression
    return .expression e
  | .pattern => do
    let p ← pattern depth
    let _ ← atEnd .pattern
    return .pattern p
  | .type => do
    let t ← type depth
    let _ ← atEnd .type
    return .type t
where
  /-- The end of the input is looked at and not consumed. -/
  atEnd (category : Category) : Parser Unit := do
    if ← test (·.isAt .eof) then return () else unexpected category (.kind .eof)

end Parser

/-- The state between two calls: the cursor, and the category under which too deep nesting was
first reported. -/
structure Reader where
  file : String
  cursor : Cursor
  overflow : Option Category

namespace Reader

/-- A reader at the first token. Without a name of its own it takes the last token's file. -/
def ofTokens? (file? : Option String) (tokens : List Token) : Option Reader := do
  let cursor ← Cursor.ofTokens? tokens
  let last ← tokens.getLast?
  return ⟨file?.getD last.span.file, cursor, none⟩

/-- Too deep nesting is reported under the category of its first report. -/
def settle (overflow : Option Category) : Failure → Failure × Option Category
  | .rejected r =>
    if r.cause = .nestingTooDeep then
      let category := overflow.getD r.category
      (.rejected { r with category }, some category)
    else (.rejected r, overflow)
  | e => (e, overflow)

def read (r : Reader) (form : Form) : Except Failure (Tree Span) × Reader :=
  match Parser.tree Parser.maxDepth form r.file r.cursor with
  | .done t next => (.ok t, { r with cursor := next })
  | .failed e stopped =>
    let (e, overflow) := settle r.overflow e
    (.error e, ⟨r.file, stopped, overflow⟩)

/-- The outcome of each call, with the number of tokens left behind the cursor after it. -/
def readAll (r : Reader) : List Form → List (Except Failure (Tree Span) × Nat)
  | [] => []
  | form :: forms =>
    let (result, next) := r.read form
    (result, next.cursor.rest.length) :: next.readAll forms

end Reader

def Parser.run {α : Type} (p : Parser α) (file? : Option String) (tokens : List Token) :
    Except Failure α :=
  match Reader.ofTokens? file? tokens with
  | none => .error .noTokens
  | some r =>
    match p r.file r.cursor with
    | .done a _ => .ok a
    | .failed e _ => .error e

/-- Why a source cannot be read: stray characters, or tokens that do not form a tree. -/
inductive SourceFailure
  | strays (reports : List Diagnostic)
  | unreadable (failure : Failure)
  deriving DecidableEq, Repr

namespace SourceFailure

/-- The reports that can be shown beside the source, if the failure is of that sort. -/
def diagnostics? : SourceFailure → Option (List Diagnostic)
  | strays reports => some reports
  | unreadable e => e.diagnostic?.map ([·])

end SourceFailure

def Parser.runSource {α : Type} (p : Parser α) (file source : String) : Except SourceFailure α :=
  match lex file source with
  | .error reports => .error (.strays reports)
  | .ok tokens =>
    match p.run (some file) tokens with
    | .ok a => .ok a
    | .error e => .error (.unreadable e)

def readSource (form : Form) (file source : String) : Except SourceFailure (Tree Span) :=
  (Parser.tree Parser.maxDepth form).runSource file source

def readProgram (file source : String) : Except SourceFailure (Program Span) :=
  (Parser.program Parser.maxDepth).runSource file source

end TinyFront
