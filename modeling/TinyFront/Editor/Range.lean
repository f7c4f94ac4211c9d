import TinyFront.Source.Span
import TinyFront.Source.Text

/-!
Places in a document as editors count them: lines and characters both start from zero.
-/
namespace TinyFront.Editor

structure Place where
  line : Nat
  character : Nat
  deriving DecidableEq, Repr

namespace Place

def zero : Place := ⟨0, 0⟩

def ofPosition (p : Position) : Place := ⟨p.line - 1, p.column - 1⟩

end Place

structure Range where
  start : Place
  stop : Place
  deriving DecidableEq, Repr

namespace Range

def zero : Range := ⟨.zero, .zero⟩

def ofOffsets (source : Source) (start stop : Int) : Range :=
  ⟨.ofPosition (source.location start), .ofPosition (source.location stop)⟩

def ofSpan (source : Source) (s : Span) : Range := ofOffsets source s.start s.stop

/-- From the first character to behind the last one. -/
def whole (source : Source) : Range := ⟨.zero, .ofPosition (source.location source.byteSize)⟩

end Range
end TinyFront.Editor
