/-
  Fixity.Number.Basic
  ────────────────────────────────
  **THE NUMBERS OF A PROGRAM ARE THE BINARY64 VALUES.**

  Every finite binary64 value is a whole multiple of 2⁻¹⁰⁷⁴, so a finite number
  is kept EXACTLY, as a sign and a count of those units.  Nothing is rounded
  here; rounding happens once, when a literal is read (`Fixity.Number.Rounding`).

  Main results: `natural?_eq_some_iff` (which numbers are whole) and
  `natural?_ofNat` (a natural number in range is one).
-/
import Fixity.Number.Power

namespace Fixity

/-- A binary64 value. -/
inductive Number where
  /-- No number. -/
  | nan
  /-- An infinity. -/
  | infinite (negative : Bool)
  /-- The value `units · 2⁻¹⁰⁷⁴`, or its opposite; zero has both signs. -/
  | finite (negative : Bool) (units : Nat)
deriving Repr, DecidableEq

namespace Number

/-- How many units make one.  Never unfolded by a proof except to compare powers of two. -/
@[irreducible] def unitsPerOne : Nat := twoTo 1074

/-- The least count of units that is beyond every finite value: 2¹⁰²⁴. -/
@[irreducible] def unitsBeyond : Nat := twoTo 2098

/-! ## §1. Whole numbers. -/

/-- The natural number that a value is, if it is one and carries no minus sign. -/
def natural? : Number → Option Nat
  | finite false units => if units % unitsPerOne = 0 then some (units / unitsPerOne) else none
  | _ => none

theorem unitsPerOne_pos : 0 < unitsPerOne := by
  unfold unitsPerOne
  exact twoTo_pos 1074

theorem natural?_eq_some_iff {x : Number} {n : Nat} :
    x.natural? = some n ↔ x = finite false (n * unitsPerOne) := by
  cases x with
  | nan => simp [natural?]
  | infinite negative => simp [natural?]
  | finite negative units =>
    cases negative with
    | true => simp [natural?]
    | false =>
      simp only [natural?, finite.injEq, true_and]
      constructor
      · intro h
        split at h
        · next hmod =>
          simp only [Option.some.injEq] at h
          rw [← h, Nat.div_mul_cancel (Nat.dvd_of_mod_eq_zero hmod)]
        · simp at h
      · rintro rfl
        simp [Nat.mul_div_cancel _ unitsPerOne_pos]

theorem natural?_ofNat (n : Nat) : (finite false (n * unitsPerOne)).natural? = some n :=
  natural?_eq_some_iff.2 rfl

/-! ## §2. The interchange format. -/

/-- Where the bits of the sign, and of an infinity's exponent, stand. -/
def signBit : Nat := twoTo 63

/-- The exponent field with all its bits set. -/
def exponentMask : Nat := 0x7ff * twoTo 52

/-- The eleven exponent bits and the fifty two fraction bits of a finite
magnitude.  Below 2⁵² units the value is subnormal and the count itself is the
fraction; above, the count is `significand · 2ᵉ` with a significand of fifty
three bits, of which the first is left out. -/
def magnitudeBits (units : Nat) : Nat :=
  if units < twoTo 52 then units
  else
    let exponent := units.log2 - 52
    (exponent + 1) * twoTo 52 + (units / twoTo exponent - twoTo 52)

/-- The sixty four bits of the interchange format; a value that is no number has
many and is given none. -/
def bits? : Number → Option Nat
  | nan => none
  | infinite negative => some ((if negative then signBit else 0) + exponentMask)
  | finite negative units => some ((if negative then signBit else 0) + magnitudeBits units)

end Number
end Fixity
