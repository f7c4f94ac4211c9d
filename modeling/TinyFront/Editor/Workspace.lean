import TinyFront.Editor.Completion
import TinyFront.Editor.Symbol
import TinyFront.Format.Calls

/-!
The documents that are open in an editor, and the requests about them. A request that takes more calls
than may be open at once is not answered. Main statements: opening, changing and closing one document
leaves every other one as it is.
-/
namespace TinyFront.Editor

structure Edit where
  range : Range
  text : String
  deriving DecidableEq, Repr

namespace Document

def symbols (d : Document) : List Symbol := Symbol.ofProgram d.source d.program

/-- The edit that lays the document out anew; there is none if it has no program or is laid out
already. -/
def formatting (d : Document) : Option Edit :=
  d.program.bind fun p =>
    let text := p.format standardIndent
    if text = d.source.content then none else some ⟨.whole d.source, text⟩

def hasDetails (d : Document) : Bool := d.program.all fun p => p.detailCalls ≤ maxCalls

def hasLayout (d : Document) : Bool := d.program.all fun p => p.calls ≤ maxCalls

end Document

/-- No two open documents have the same name. -/
structure Workspace where
  documents : List Document

namespace Workspace

def empty : Workspace := ⟨[]⟩

def find? (w : Workspace) (name : String) : Option Document := w.documents.find? (·.name == name)

def close (w : Workspace) (name : String) : Workspace := ⟨w.documents.filter (·.name != name)⟩

/-- Replaces the document of the same name, if there is one. -/
def put (w : Workspace) (d : Document) : Workspace := ⟨d :: (w.close d.name).documents⟩

def names (w : Workspace) : List String := w.documents.map (·.name)

@[simp] theorem find?_empty (name : String) : empty.find? name = none := rfl

theorem find?_close (w : Workspace) (name other : String) :
    (w.close name).find? other = if other = name then none else w.find? other := by
  obtain ⟨ds⟩ := w
  simp only [find?, close]
  induction ds with
  | nil => simp
  | cons d ds ih =>
    by_cases hd : d.name = name
    · by_cases ho : other = name
      · simp_all
      · have : (d.name == other) = false := by simp [hd, Ne.symm ho]
        simp_all
    · by_cases ho : d.name = other
      · subst ho; simp [hd]
      · simp_all

theorem find?_put (w : Workspace) (d : Document) (other : String) :
    (w.put d).find? other = if other = d.name then some d else w.find? other := by
  have h := find?_close w d.name other
  simp only [find?, put] at *
  by_cases ho : d.name = other
  · subst ho; simp
  · simp [ho, Ne.symm ho] at *
    exact h

theorem mem_names_iff (w : Workspace) (name : String) :
    name ∈ w.names ↔ (w.find? name).isSome = true := by
  simp [names, find?, List.find?_isSome]

end Workspace

/-- What an editor may ask about the document of a name. -/
inductive Action
  /-- The document has this text from now on, whether or not it was open before. -/
  | revised (text : String)
  | closed
  | completion
  | symbols
  | formatting
  deriving DecidableEq, Repr

namespace Action

/-- Each text is a whole new content, so that only the last one counts. -/
def changed (texts : List String) : Action := revised (texts.getLast?.getD "")

end Action

structure Request where
  name : String
  action : Action
  deriving DecidableEq, Repr

inductive Reply
  | published (document : Document)
  | remaining (names : List String)
  | completions (items : List Completion)
  | symbols (items : List Symbol)
  | formatted (edit : Option Edit)
  /-- The calls ran out before there was an answer. -/
  | exhausted

namespace Workspace

def handle (w : Workspace) (r : Request) : Reply × Workspace :=
  let document? := w.find? r.name
  match r.action with
  | .revised text =>
    let d := Document.ofText r.name text
    (.published d, w.put d)
  | .closed =>
    let next := w.close r.name
    (.remaining next.names.mergeSort, next)
  | .completion => (.completions (Completion.ofProgram (document?.bind (·.program))), w)
  | .symbols =>
    (if document?.all Document.hasDetails then .symbols (document?.elim [] Document.symbols)
      else .exhausted, w)
  | .formatting =>
    (if document?.all Document.hasLayout then .formatted (document?.bind Document.formatting)
      else .exhausted, w)

theorem handle_symbols_eq {w : Workspace} {name : String} {items : List Symbol} :
    (w.handle ⟨name, .symbols⟩).1 = .symbols items ↔
      (w.find? name).all Document.hasDetails = true ∧ (w.find? name).elim [] Document.symbols = items := by
  simp only [handle]
  split <;> simp [*]

theorem handle_formatting_eq {w : Workspace} {name : String} {edit : Option Edit} :
    (w.handle ⟨name, .formatting⟩).1 = .formatted edit ↔
      (w.find? name).all Document.hasLayout = true ∧ (w.find? name).bind Document.formatting = edit := by
  simp only [handle]
  split <;> simp [*]

def handleAll (w : Workspace) : List Request → List Reply
  | [] => []
  | r :: rs =>
    let (reply, next) := w.handle r
    reply :: next.handleAll rs

end Workspace
end TinyFront.Editor
