/-!
Classes of characters written as lists of code point ranges.
-/
namespace TinyFront.Text

/-- The code points from `first` to `last`, every `step` of them. -/
structure Range where
  first : Nat
  last : Nat
  step : Nat
  deriving DecidableEq, Repr

namespace Range

def contains (r : Range) (n : Nat) : Bool :=
  r.first ≤ n && n ≤ r.last && (n - r.first) % r.step == 0

@[simp] theorem contains_unit (a b n : Nat) :
    (⟨a, b, 1⟩ : Range).contains n = (decide (a ≤ n) && decide (n ≤ b)) := by
  simp [contains, Nat.mod_one]

end Range

/-- Whether some range of the class holds the character. -/
def inRanges (rs : List Range) (c : Char) : Bool := rs.any (·.contains c.toNat)

/-- The class whose ranges leave no code point out. -/
def solid (bounds : List (Nat × Nat)) : List Range := bounds.map fun b => ⟨b.1, b.2, 1⟩

@[simp] theorem inRanges_nil (c : Char) : inRanges [] c = false := rfl

@[simp] theorem inRanges_cons (r : Range) (rs : List Range) (c : Char) :
    inRanges (r :: rs) c = (r.contains c.toNat || inRanges rs c) := rfl

end TinyFront.Text
