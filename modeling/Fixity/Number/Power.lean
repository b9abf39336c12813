/-
  Fixity.Number.Power
  ────────────────────────────────
  **POWERS OF TWO AND OF TEN.**

  Binary numbers are scaled by powers of two and decimal texts by powers of ten;
  both have a name here, so that every module means the same by them.

  Main results: `twoTo_add` (exponents add) and `tenTo_pos`, `twoTo_pos`.
-/

namespace Fixity.Number

/-- Two to a power. -/
def twoTo (exponent : Nat) : Nat := Nat.pow 2 exponent

/-- Ten to a power. -/
def tenTo (exponent : Nat) : Nat := Nat.pow 10 exponent

theorem twoTo_succ (exponent : Nat) : twoTo (exponent + 1) = twoTo exponent * 2 := rfl

theorem tenTo_succ (exponent : Nat) : tenTo (exponent + 1) = tenTo exponent * 10 := rfl

theorem twoTo_pos (exponent : Nat) : 0 < twoTo exponent := by
  induction exponent with
  | zero => exact Nat.one_pos
  | succ exponent ih => rw [twoTo_succ]; omega

theorem tenTo_pos (exponent : Nat) : 0 < tenTo exponent := by
  induction exponent with
  | zero => exact Nat.one_pos
  | succ exponent ih => rw [tenTo_succ]; omega

theorem twoTo_add (first second : Nat) :
    twoTo (first + second) = twoTo first * twoTo second := by
  induction second with
  | zero => exact (Nat.mul_one _).symm
  | succ second ih => rw [← Nat.add_assoc, twoTo_succ, ih, twoTo_succ, Nat.mul_assoc]

end Fixity.Number
