import TinyFront.Diagnostic.Basic
import TinyFront.Source.Text
import TinyFront.Text.Color

/-!
Diagnostics as they are shown to a reader: a header, an excerpt of the source for each label, and
the notes. A label whose source is not known shows where it is, but nothing of the text.
-/
namespace TinyFront

/-- Attributes of a piece of shown text, as a terminal knows them. -/
inductive Ink
  | boldRed | boldYellow | boldCyan | boldBlue | bold
  deriving DecidableEq, Repr

namespace Ink

def attributes : Ink → String
  | boldRed => "1;31" | boldYellow => "1;33" | boldCyan => "1;36" | boldBlue => "1;34" | bold => "1"

/-- The text between the code of the ink and the code that ends it. -/
def paint (color : Bool) (ink : Ink) (s : String) : String :=
  if color then Text.colorCode ink.attributes ++ s ++ Text.colorCode "0" else s

@[simp] theorem paint_plain (ink : Ink) (s : String) : ink.paint false s = s := rfl

def ofSeverity : Severity → Ink
  | .error => boldRed | .warning => boldYellow | .note => boldCyan

end Ink

namespace Diagnostic

def emptyGutter (color : Bool) : String := "  " ++ Ink.boldBlue.paint color "   |"

/-- Line numbers stand flush right in four columns. -/
def numberedGutter (color : Bool) (line : Nat) : String :=
  "  " ++ Ink.boldBlue.paint color (Text.padLeft 4 (toString line) ++ " |")

def pointer (color : Bool) (place : String) : String :=
  "  " ++ Ink.boldBlue.paint color "-->" ++ " " ++ place

def remark (color : Bool) (ink : Ink) (l : Label) : List String :=
  if l.message = "" then []
  else [emptyGutter color ++ "   " ++ ink.paint color l.message]

/-- At least one caret, and one for each character up to the end column. -/
def carets (color : Bool) (ink : Ink) (start stop : Position) : List String :=
  if start.line = stop.line then
    [emptyGutter color ++ " " ++ String.ofList (List.replicate (start.column - 1) ' ') ++
      ink.paint color (String.ofList (List.replicate (max 1 (stop.column - start.column)) '^'))]
  else []

/-- The line where the label starts, with carets under it if the label ends on that line. -/
def excerpt (color : Bool) (ink : Ink) (source : Source) (l : Label) : List String :=
  let start := source.location l.span.start
  let stop := source.location l.span.stop
  [pointer color (l.span.file ++ ":" ++ toString start.line ++ ":" ++ toString start.column),
    emptyGutter color,
    numberedGutter color start.line ++ " " ++ source.lineAt start.line] ++
  carets color ink start stop

/-- A label of an unknown source shows its byte offsets only. -/
def labelLines (color : Bool) (ink : Ink) (find : String → Option Source) (l : Label) :
    List String :=
  (match find l.span.file with
    | some source => excerpt color ink source l
    | none => [pointer color l.span.text]) ++
  remark color ink l

def header (color : Bool) (d : Diagnostic) : String :=
  (Ink.ofSeverity d.severity).paint color (d.severity.text ++ "[" ++ d.code ++ "]") ++
    Ink.bold.paint color (": " ++ d.message)

def noteLine (color : Bool) (note : String) : String :=
  "  " ++ Ink.boldBlue.paint color "=" ++ " note: " ++ note

def renderLines (color : Bool) (find : String → Option Source) (d : Diagnostic) : List String :=
  header color d ::
    (d.labels.flatMap (labelLines color (Ink.ofSeverity d.severity) find) ++
      d.notes.map (noteLine color))

/-- The shown form; `find` knows the sources by their names. -/
def render (color : Bool) (find : String → Option Source) (d : Diagnostic) : String :=
  String.intercalate "\n" (d.renderLines color find)

end Diagnostic
end TinyFront
