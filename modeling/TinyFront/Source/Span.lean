/-!
Spans: half-open ranges of byte offsets in a named file. Containment looks at the offsets alone.
-/
namespace TinyFront

/-- Offsets are integers: a span may come from outside and point anywhere. -/
structure Span where
  file : String
  start : Int
  stop : Int
  deriving DecidableEq, Repr, Inhabited

namespace Span

def text (s : Span) : String := s.file ++ ":" ++ toString s.start ++ ".." ++ toString s.stop

def contains (outer inner : Span) : Bool := outer.start ≤ inner.start && inner.stop ≤ outer.stop

@[simp] theorem contains_self (s : Span) : s.contains s = true := by simp [contains]

theorem contains_trans {a b c : Span} (hab : a.contains b = true) (hbc : b.contains c = true) :
    a.contains c = true := by
  simp only [contains, Bool.and_eq_true, decide_eq_true_eq] at *
  omega

/-- The same range `distance` bytes further on. -/
def shift (distance : Int) (s : Span) : Span := ⟨s.file, s.start + distance, s.stop + distance⟩

@[simp] theorem shift_file (d : Int) (s : Span) : (s.shift d).file = s.file := rfl

@[simp] theorem shift_start (d : Int) (s : Span) : (s.shift d).start = s.start + d := rfl

@[simp] theorem shift_stop (d : Int) (s : Span) : (s.shift d).stop = s.stop + d := rfl

@[simp] theorem shift_zero (s : Span) : s.shift 0 = s := by cases s; simp [shift]

@[simp] theorem shift_shift (d e : Int) (s : Span) : (s.shift d).shift e = s.shift (d + e) := by
  cases s; simp [shift]; omega

end Span
end TinyFront
