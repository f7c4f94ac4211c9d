import TinyFront.Toml.Scalar

/-!
Values where a yes or no is asked for. A number with a fraction stands for the nearest binary64
number, so one that is small enough counts as zero. Main statement: a decimal number is rounded to
zero exactly if it is at most half of the smallest positive binary64 number.
-/
namespace TinyFront.Toml

/-- The coefficient divided by as many tens as there are places; with negative places it is
multiplied by them. -/
structure Decimal where
  coefficient : Nat
  places : Int
  deriving DecidableEq, Repr

namespace Decimal

/-- The number that a literal writes; underscores between digits do not count. -/
def ofLiteral (literal : List Char) : Decimal :=
  let cs := literal.filter (· != '_')
  let isExponentMark := fun (c : Char) => c == 'e' || c == 'E'
  let mantissa := cs.takeWhile (!isExponentMark ·)
  let exponent := (cs.dropWhile (!isExponentMark ·)).tail
  let fraction := (mantissa.dropWhile (· != '.')).tail
  { coefficient := numeral 10 (mantissa.filter Char.isDigit)
    places := fraction.length - signed exponent (numeral 10 (afterSign exponent)) }

/-- The smallest positive binary64 number is `2 ^ (1 - halfExponent)`; its half lies between it and
zero, and goes to zero as the even one of the two. -/
def halfExponent : Nat := 1075

/-- Whether the nearest binary64 number is zero. The first test spares the powers where the places
alone decide. -/
def isNearZero (d : Decimal) : Bool :=
  match d.places with
  | .ofNat n =>
    d.coefficient.log2 + 1 + halfExponent ≤ 3 * n || d.coefficient * Nat.pow 2 halfExponent ≤ Nat.pow 10 n
  | .negSucc _ => d.coefficient == 0

theorem mul_pow_le {c k n : Nat} (h : c.log2 + 1 + k ≤ 3 * n) : c * Nat.pow 2 k ≤ Nat.pow 10 n :=
  calc c * 2 ^ k
      ≤ 2 ^ (c.log2 + 1) * 2 ^ k := Nat.mul_le_mul_right _ (Nat.le_of_lt Nat.lt_log2_self)
    _ = 2 ^ (c.log2 + 1 + k) := (Nat.pow_add ..).symm
    _ ≤ 2 ^ (3 * n) := Nat.pow_le_pow_right (by decide) h
    _ = 8 ^ n := Nat.pow_mul ..
    _ ≤ 10 ^ n := Nat.pow_le_pow_left (by decide) n

theorem isNearZero_ofNat_iff (coefficient n : Nat) :
    isNearZero ⟨coefficient, .ofNat n⟩ = true ↔
      coefficient * Nat.pow 2 halfExponent ≤ Nat.pow 10 n := by
  rw [isNearZero, Bool.or_eq_true, decide_eq_true_eq, decide_eq_true_eq, or_iff_right_iff_imp]
  exact mul_pow_le

theorem isNearZero_negSucc_iff (coefficient n : Nat) :
    isNearZero ⟨coefficient, .negSucc n⟩ = true ↔ coefficient = 0 := by
  simp [isNearZero]

end Decimal

namespace Value

/-- Whether a number with a fraction or an exponent is zero; the special numbers are not. -/
def isZeroLiteral (literal : List Char) : Bool :=
  literal.any Char.isDigit && (Decimal.ofLiteral literal).isNearZero

/-- Whether the value stands for yes where a yes or no is asked for: everything does but false,
zero and what is empty. -/
def holds : Value → Bool
  | string s => !s.isEmpty
  | integer n => n != 0
  | float l => !isZeroLiteral l.toList
  | boolean b => b
  | moment _ => true
  | array vs => !vs.isEmpty
  | table es => !es.isEmpty

end Value
end TinyFront.Toml
