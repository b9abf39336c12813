/-
  Fixity.Number.Rounding
  ────────────────────────────────
  **ROUNDING A QUOTIENT TO THE NEAREST NUMBER, TIES TO EVEN.**

  A quotient of natural numbers is rounded on the binary64 grid in exact
  arithmetic: the grid near a value of `b` bits (in units of 2⁻¹⁰⁷⁴) has steps of
  2^(b − 53), and of one unit where that is less.  A value that rounds to 2¹⁰²⁴ or
  beyond is infinite.

  Main results: `roundHalfEven_mul` (an exact quotient is not changed) and
  `roundHalfEven_le`, `le_roundHalfEven` (the result is a neighbour of the quotient).
-/
import Fixity.Number.Basic

namespace Fixity.Number

/-- The natural number nearest to `numerator / denominator`; a quotient halfway
between two goes to the even one. -/
def roundHalfEven (numerator denominator : Nat) : Nat :=
  let low := numerator / denominator
  let doubled := 2 * (numerator % denominator)
  if doubled < denominator then low
  else if denominator < doubled then low + 1
  else if low % 2 = 0 then low else low + 1

/-- The step of the grid at a magnitude whose whole part is `whole` units. -/
def grain (whole : Nat) : Nat := twoTo (whole.log2 + 1 - 53)

/-- The count of units of the grid point nearest to `numerator / denominator`
units, with no bound above. -/
def nearestUnits (numerator denominator : Nat) : Nat :=
  let step := grain (numerator / denominator)
  roundHalfEven numerator (denominator * step) * step

/-- The number nearest to `numerator / denominator`, with the given sign. -/
def ofRatio (negative : Bool) (numerator denominator : Nat) : Number :=
  let units := nearestUnits (numerator * unitsPerOne) denominator
  if units < unitsBeyond then finite negative units else infinite negative

/-- The number nearest to `digits · 10^exponent`, with the given sign.  Far
outside the range of binary64 the power of ten is not worked out: past 10⁴⁰⁰ the
result is infinite whatever the digits, and below 2⁻¹⁰⁷⁵ it is zero. -/
def ofDecimal (negative : Bool) (digits : Nat) : Int → Number
  | .ofNat exponent =>
    if digits = 0 then finite negative 0
    else if 400 < exponent then infinite negative
    else ofRatio negative (digits * tenTo exponent) 1
  | .negSucc less =>
    if digits.log2 + 1 + 1075 ≤ 3 * (less + 1) then finite negative 0
    else ofRatio negative digits (tenTo (less + 1))

/-! ## §1. Rounding moves to a neighbour. -/

theorem le_roundHalfEven (numerator denominator : Nat) :
    numerator / denominator ≤ roundHalfEven numerator denominator := by
  simp only [roundHalfEven]
  repeat' split
  all_goals omega

theorem roundHalfEven_le (numerator denominator : Nat) :
    roundHalfEven numerator denominator ≤ numerator / denominator + 1 := by
  simp only [roundHalfEven]
  repeat' split
  all_goals omega

/-- An exact quotient is its own nearest. -/
theorem roundHalfEven_mul (quotient : Nat) {denominator : Nat} (h : 0 < denominator) :
    roundHalfEven (quotient * denominator) denominator = quotient := by
  simp [roundHalfEven, Nat.mul_div_cancel _ h, h]

/-! ## §2. Small whole numbers are exact. -/

theorem grain_of_lt {whole : Nat} (h : whole < twoTo 53) : grain whole = 1 := by
  unfold grain
  by_cases h0 : whole = 0
  · subst h0; rfl
  · have := (Nat.log2_lt h0).2 h
    have hz : whole.log2 + 1 - 53 = 0 := by omega
    rw [hz]; rfl

/-- A count of units of at most fifty three bits is on the grid. -/
theorem nearestUnits_of_lt {units : Nat} (h : units < twoTo 53) : nearestUnits units 1 = units := by
  simp [nearestUnits, grain_of_lt h, roundHalfEven, Nat.mod_one]

end Fixity.Number
