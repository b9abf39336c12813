/-
  Fixity.Proofs.Number.Nearest
  ────────────────────────────────
  **THE DECIMALS THAT ARE READ AS A GIVEN WHOLE NUMBER.**

  Rounding is monotone, so the quotients that go to one grid point are all those
  between two bounds: halfway to the grid point below and halfway to the one
  above, both included when the significand is even.  A whole number of at most
  thirty two bits has an even significand, and the next binary64 value lies
  2^(e − 52) above it, e being its binary logarithm; the one before lies as far
  below, or half as far if the number is a power of two.

  Main results: `nearestUnits_le_iff`, `le_nearestUnits_iff` (the two bounds on the
  grid) and `natural?_ofDecimal_iff` (which decimals read as a whole number).
-/
import Fixity.Proofs.Number.ReadBack
import Mathlib.Algebra.Order.Field.Basic
import Mathlib.Data.Rat.Cast.Order
import Mathlib.Tactic.FieldSimp
import Mathlib.Tactic.Linarith
import Mathlib.Tactic.Ring

namespace Fixity.Number

/-! ## §1. Rounding on the whole numbers is monotone. -/

section HalfEven

variable {numerator denominator rounded : Nat}

/-- The quotients that do not round past an even number: up to halfway beyond it. -/
theorem roundHalfEven_le_iff (hpos : 0 < denominator) (heven : rounded % 2 = 0) :
    roundHalfEven numerator denominator ≤ rounded
      ↔ 2 * numerator ≤ 2 * (rounded * denominator) + denominator := by
  have hdivmod := Nat.div_add_mod' numerator denominator
  have hmod := Nat.mod_lt numerator hpos
  have hlow := le_roundHalfEven numerator denominator
  have hhigh := roundHalfEven_le numerator denominator
  rcases Nat.lt_trichotomy (numerator / denominator) rounded with hlt | heq | hgt
  · have hmul : (numerator / denominator + 1) * denominator ≤ rounded * denominator :=
      Nat.mul_le_mul_right denominator hlt
    rw [Nat.succ_mul] at hmul
    omega
  · -- the whole part is the even number itself, and half a step or less is dropped
    have hround : roundHalfEven numerator denominator ≤ rounded
        ↔ 2 * (numerator % denominator) ≤ denominator := by
      unfold roundHalfEven
      rw [heq]
      dsimp only
      repeat' split
      all_goals omega
    rw [heq] at hdivmod
    rw [hround]
    omega
  · have hmul : (rounded + 1) * denominator ≤ numerator / denominator * denominator :=
      Nat.mul_le_mul_right denominator hgt
    rw [Nat.succ_mul] at hmul
    omega

/-- The quotients that do not round below an even number: from halfway before it. -/
theorem le_roundHalfEven_iff (hpos : 0 < denominator) (heven : rounded % 2 = 0) :
    rounded ≤ roundHalfEven numerator denominator
      ↔ 2 * (rounded * denominator) ≤ 2 * numerator + denominator := by
  have hdivmod := Nat.div_add_mod' numerator denominator
  have hmod := Nat.mod_lt numerator hpos
  have hlow := le_roundHalfEven numerator denominator
  have hhigh := roundHalfEven_le numerator denominator
  rcases Nat.lt_trichotomy (numerator / denominator + 1) rounded with hlt | heq | hgt
  · have hmul : (numerator / denominator + 1 + 1) * denominator ≤ rounded * denominator :=
      Nat.mul_le_mul_right denominator hlt
    rw [Nat.succ_mul, Nat.succ_mul] at hmul
    omega
  · -- the whole part is odd, so from half a step on the quotient goes up
    have hround : rounded ≤ roundHalfEven numerator denominator
        ↔ denominator ≤ 2 * (numerator % denominator) := by
      unfold roundHalfEven
      dsimp only
      repeat' split
      all_goals omega
    have hmul : rounded * denominator = numerator / denominator * denominator + denominator := by
      rw [← heq, Nat.succ_mul]
    rw [hround]
    omega
  · have hmul : rounded * denominator ≤ numerator / denominator * denominator :=
      Nat.mul_le_mul_right denominator (Nat.lt_succ_iff.1 hgt)
    omega

end HalfEven

/-! ## §2. The grid between two powers of two. -/

theorem twoTo_le {first second : Nat} (h : first ≤ second) : twoTo first ≤ twoTo second :=
  Nat.pow_le_pow_right (by decide) h

/-- The quotient in units, rounded on whole numbers of grains. -/
theorem nearestUnits_eq (numerator denominator : Nat) :
    nearestUnits numerator denominator
      = roundHalfEven numerator (denominator * grain (numerator / denominator))
        * grain (numerator / denominator) := rfl

/-- The grain is constant between two powers of two. -/
theorem grain_eq {whole exponent : Nat} (hlow : twoTo (52 + exponent) ≤ whole)
    (hhigh : whole < twoTo (53 + exponent)) : grain whole = twoTo exponent := by
  have hne : whole ≠ 0 := by
    have := twoTo_pos (52 + exponent)
    omega
  have hbelow : whole.log2 < 53 + exponent := (Nat.log2_lt hne).2 hhigh
  have habove : 52 + exponent ≤ whole.log2 := (Nat.le_log2 hne).2 hlow
  have hexponent : whole.log2 + 1 - 53 = exponent := by omega
  rw [grain, hexponent]

/-- Rounding does not lead below a power of two that the value reaches. -/
theorem le_nearestUnits_of_le {numerator denominator exponent : Nat}
    (h : twoTo exponent ≤ numerator / denominator) :
    twoTo exponent ≤ nearestUnits numerator denominator := by
  rw [nearestUnits_eq]
  have hlow := le_roundHalfEven numerator (denominator * grain (numerator / denominator))
  rw [← Nat.div_div_eq_div_mul] at hlow
  generalize roundHalfEven numerator (denominator * grain (numerator / denominator)) = rounded
    at hlow ⊢
  generalize numerator / denominator = whole at h hlow ⊢
  have hne : whole ≠ 0 := by
    have := twoTo_pos exponent
    omega
  -- the grain divides the power of two that the value starts with
  have hlog : whole.log2 = whole.log2 + 1 - 53 + (whole.log2 - (whole.log2 + 1 - 53)) := by omega
  have hgrain : twoTo whole.log2
      = twoTo (whole.log2 - (whole.log2 + 1 - 53)) * grain whole := by
    rw [grain, ← twoTo_add, Nat.add_comm, ← hlog]
  have hgrain_pos : 0 < grain whole := twoTo_pos _
  have hwhole : twoTo whole.log2 ≤ whole := Nat.log2_self_le hne
  have hquotient : twoTo (whole.log2 - (whole.log2 + 1 - 53)) ≤ whole / grain whole := by
    rw [Nat.le_div_iff_mul_le hgrain_pos, ← hgrain]
    exact hwhole
  calc twoTo exponent
    _ ≤ twoTo whole.log2 := twoTo_le ((Nat.le_log2 hne).2 h)
    _ = twoTo (whole.log2 - (whole.log2 + 1 - 53)) * grain whole := hgrain
    _ ≤ rounded * grain whole := Nat.mul_le_mul_right _ (Nat.le_trans hquotient hlow)

/-- Rounding does not lead past a power of two that the value stays below. -/
theorem nearestUnits_le_of_lt {numerator denominator exponent : Nat}
    (h : numerator / denominator < twoTo exponent) :
    nearestUnits numerator denominator ≤ twoTo exponent := by
  rw [nearestUnits_eq]
  have hhigh := roundHalfEven_le numerator (denominator * grain (numerator / denominator))
  rw [← Nat.div_div_eq_div_mul] at hhigh
  generalize roundHalfEven numerator (denominator * grain (numerator / denominator)) = rounded
    at hhigh ⊢
  generalize numerator / denominator = whole at h hhigh ⊢
  -- the grain divides that power of two
  have hle : whole.log2 + 1 - 53 ≤ exponent := by
    by_cases hzero : whole = 0
    · subst hzero
      exact Nat.zero_le _
    · have hlog : whole.log2 < exponent := (Nat.log2_lt hzero).2 h
      omega
  have hgrain : twoTo exponent = twoTo (exponent - (whole.log2 + 1 - 53)) * grain whole := by
    rw [grain, ← twoTo_add]
    congr 1
    omega
  have hgrain_pos : 0 < grain whole := twoTo_pos _
  have hquotient : whole / grain whole < twoTo (exponent - (whole.log2 + 1 - 53)) := by
    rw [Nat.div_lt_iff_lt_mul hgrain_pos, ← hgrain]
    exact h
  calc rounded * grain whole
    _ ≤ twoTo (exponent - (whole.log2 + 1 - 53)) * grain whole :=
      Nat.mul_le_mul_right _ (Nat.le_trans hhigh hquotient)
    _ = twoTo exponent := hgrain.symm

/-! ## §3. The quotients that round to a grid point. -/

section Grid

variable {numerator denominator significand exponent : Nat}

/-- What lies between two powers of two is rounded in steps of one grain. -/
theorem nearestUnits_of_binade (hlow : twoTo (52 + exponent) ≤ numerator / denominator)
    (hhigh : numerator / denominator < twoTo (53 + exponent)) :
    nearestUnits numerator denominator
      = roundHalfEven numerator (denominator * twoTo exponent) * twoTo exponent := by
  rw [nearestUnits_eq, grain_eq hlow hhigh]

/-- The upper bound: halfway to the grid point above. -/
theorem nearestUnits_le_iff (hpos : 0 < denominator) (heven : significand % 2 = 0)
    (hlow : twoTo 52 ≤ significand) (hhigh : significand < twoTo 53) :
    nearestUnits numerator denominator ≤ significand * twoTo exponent
      ↔ 2 * numerator ≤ (2 * significand + 1) * twoTo exponent * denominator := by
  have hstep : 0 < twoTo exponent := twoTo_pos exponent
  have hsmall : twoTo (52 + exponent) ≤ significand * twoTo exponent := by
    rw [twoTo_add]
    exact Nat.mul_le_mul_right _ hlow
  have hlarge : (significand + 1) * twoTo exponent ≤ twoTo (53 + exponent) := by
    rw [twoTo_add]
    exact Nat.mul_le_mul_right _ hhigh
  rcases Nat.lt_or_ge (numerator / denominator) (twoTo (52 + exponent)) with hbelow | hreached
  · -- below the binade both sides hold
    have hnearest := nearestUnits_le_of_lt hbelow
    have hnumerator : numerator < twoTo (52 + exponent) * denominator :=
      (Nat.div_lt_iff_lt_mul hpos).1 hbelow
    have hbound : twoTo (52 + exponent) * denominator
        ≤ significand * twoTo exponent * denominator := Nat.mul_le_mul_right _ hsmall
    refine iff_of_true (Nat.le_trans hnearest hsmall) ?_
    have hexpand : (2 * significand + 1) * twoTo exponent * denominator
        = 2 * (significand * twoTo exponent * denominator) + twoTo exponent * denominator := by
      ring
    omega
  · rcases Nat.lt_or_ge (numerator / denominator) (twoTo (53 + exponent)) with hin | habove
    · rw [nearestUnits_of_binade hreached hin, Nat.mul_le_mul_right_iff hstep,
        roundHalfEven_le_iff (Nat.mul_pos hpos hstep) heven]
      have hexpand : (2 * significand + 1) * twoTo exponent * denominator
          = 2 * (significand * (denominator * twoTo exponent)) + denominator * twoTo exponent := by
        ring
      rw [hexpand]
    · -- past the binade neither does
      have hnearest := le_nearestUnits_of_le habove
      have hnumerator : twoTo (53 + exponent) * denominator ≤ numerator :=
        (Nat.le_div_iff_mul_le hpos).1 habove
      have hbound : (significand + 1) * twoTo exponent * denominator
          ≤ twoTo (53 + exponent) * denominator := Nat.mul_le_mul_right _ hlarge
      have hexpand : (significand + 1) * twoTo exponent
          = significand * twoTo exponent + twoTo exponent := by ring
      have hexpand' : 2 * ((significand + 1) * twoTo exponent * denominator)
          = (2 * significand + 1) * twoTo exponent * denominator
            + twoTo exponent * denominator := by
        ring
      have hgap : 0 < twoTo exponent * denominator := Nat.mul_pos hstep hpos
      refine iff_of_false ?_ ?_ <;> omega

/-- The lower bound: halfway to the grid point below.  The first number of a binade
has its neighbour in the binade before, and is counted there. -/
theorem le_nearestUnits_iff (hpos : 0 < denominator) (heven : significand % 2 = 0)
    (hlow : twoTo 52 < significand) (hhigh : significand ≤ twoTo 53) :
    significand * twoTo exponent ≤ nearestUnits numerator denominator
      ↔ 2 * significand * twoTo exponent * denominator
        ≤ 2 * numerator + twoTo exponent * denominator := by
  have hstep : 0 < twoTo exponent := twoTo_pos exponent
  have hsmall : twoTo (52 + exponent) + twoTo exponent ≤ significand * twoTo exponent := by
    rw [twoTo_add, ← Nat.succ_mul]
    exact Nat.mul_le_mul_right _ hlow
  have hlarge : significand * twoTo exponent ≤ twoTo (53 + exponent) := by
    rw [twoTo_add]
    exact Nat.mul_le_mul_right _ hhigh
  rcases Nat.lt_or_ge (numerator / denominator) (twoTo (52 + exponent)) with hbelow | hreached
  · -- below the binade neither side holds
    have hnearest := nearestUnits_le_of_lt hbelow
    have hnumerator : numerator < twoTo (52 + exponent) * denominator :=
      (Nat.div_lt_iff_lt_mul hpos).1 hbelow
    have hbound : (twoTo (52 + exponent) + twoTo exponent) * denominator
        ≤ significand * twoTo exponent * denominator := Nat.mul_le_mul_right _ hsmall
    have hexpand : (twoTo (52 + exponent) + twoTo exponent) * denominator
        = twoTo (52 + exponent) * denominator + twoTo exponent * denominator := by ring
    have hexpand' : 2 * significand * twoTo exponent * denominator
        = 2 * (significand * twoTo exponent * denominator) := by ring
    have hgap : 0 < twoTo exponent * denominator := Nat.mul_pos hstep hpos
    refine iff_of_false ?_ ?_ <;> omega
  · rcases Nat.lt_or_ge (numerator / denominator) (twoTo (53 + exponent)) with hin | habove
    · rw [nearestUnits_of_binade hreached hin, Nat.mul_le_mul_right_iff hstep,
        le_roundHalfEven_iff (Nat.mul_pos hpos hstep) heven]
      have hexpand : 2 * significand * twoTo exponent * denominator
          = 2 * (significand * (denominator * twoTo exponent)) := by ring
      rw [hexpand, Nat.mul_comm denominator]
    · -- past the binade both do
      have hnearest := le_nearestUnits_of_le habove
      have hnumerator : twoTo (53 + exponent) * denominator ≤ numerator :=
        (Nat.le_div_iff_mul_le hpos).1 habove
      have hbound : significand * twoTo exponent * denominator
          ≤ twoTo (53 + exponent) * denominator := Nat.mul_le_mul_right _ hlarge
      have hexpand : 2 * significand * twoTo exponent * denominator
          = 2 * (significand * twoTo exponent * denominator) := by ring
      refine iff_of_true (Nat.le_trans hlarge hnearest) ?_
      omega

end Grid

/-! ## §4. The decimals that read as a whole number. -/

section Whole

variable {digits denominator whole : Nat}

/-- A positive whole number of at most thirty two bits, as an even significand. -/
theorem whole_significand (hpos : 0 < whole) (hsmall : whole < twoTo 32) :
    (whole * twoTo (52 - whole.log2)) % 2 = 0
      ∧ twoTo 52 ≤ whole * twoTo (52 - whole.log2)
      ∧ whole * twoTo (52 - whole.log2) < twoTo 53
      ∧ whole * unitsPerOne
        = whole * twoTo (52 - whole.log2) * twoTo (1022 + whole.log2) := by
  have hne : whole ≠ 0 := by omega
  have hlog : whole.log2 < 32 := (Nat.log2_lt hne).2 hsmall
  have hhead : twoTo (51 - whole.log2 + 1) = twoTo (51 - whole.log2) * 2 := twoTo_succ _
  have hlength : 51 - whole.log2 + 1 = 52 - whole.log2 := by omega
  rw [hlength] at hhead
  refine ⟨?_, ?_, ?_, ?_⟩
  · rw [hhead, ← Nat.mul_assoc]
    exact Nat.mul_mod_left _ 2
  · calc twoTo 52
      _ = twoTo whole.log2 * twoTo (52 - whole.log2) := by
        rw [← twoTo_add]
        congr 1
        omega
      _ ≤ whole * twoTo (52 - whole.log2) := Nat.mul_le_mul_right _ (Nat.log2_self_le hne)
  · calc whole * twoTo (52 - whole.log2)
      _ < twoTo (whole.log2 + 1) * twoTo (52 - whole.log2) :=
        Nat.mul_lt_mul_of_pos_right Nat.lt_log2_self (twoTo_pos _)
      _ = twoTo 53 := by
        rw [← twoTo_add]
        congr 1
        omega
  · have hone : unitsPerOne = twoTo (52 - whole.log2) * twoTo (1022 + whole.log2) := by
      unfold unitsPerOne
      rw [← twoTo_add]
      congr 1
      omega
    rw [hone, Nat.mul_assoc]

/-- In units, a whole number is not rounded past by what lies up to halfway beyond it. -/
theorem nearestUnits_le_whole_iff (hpos : 0 < whole) (hsmall : whole < twoTo 32)
    (hdenominator : 0 < denominator) :
    nearestUnits (digits * unitsPerOne) denominator ≤ whole * unitsPerOne
      ↔ digits * twoTo 53 ≤ (whole * twoTo 53 + twoTo whole.log2) * denominator := by
  obtain ⟨heven, hlow, hhigh, hwhole⟩ := whole_significand hpos hsmall
  have hlog : whole.log2 < 32 := (Nat.log2_lt (by omega)).2 hsmall
  have hunits : unitsPerOne = twoTo 1022 * twoTo 52 := by
    unfold unitsPerOne
    rw [← twoTo_add]
  have hspread : twoTo (52 - whole.log2) * twoTo whole.log2 = twoTo 52 := by
    rw [← twoTo_add]
    congr 1
    omega
  have hdouble : twoTo 53 = 2 * twoTo 52 := Nat.mul_comm _ _
  rw [hwhole, nearestUnits_le_iff hdenominator heven hlow hhigh, twoTo_add]
  -- both sides have the same large power of two as a factor
  have hleft : 2 * (digits * unitsPerOne) = digits * twoTo 53 * twoTo 1022 := by
    rw [hunits, hdouble]
    ring
  have hright : (2 * (whole * twoTo (52 - whole.log2)) + 1) * (twoTo 1022 * twoTo whole.log2)
        * denominator
      = (whole * twoTo 53 + twoTo whole.log2) * denominator * twoTo 1022 := by
    rw [hdouble, ← hspread]
    ring
  rw [hleft, hright, Nat.mul_le_mul_right_iff (twoTo_pos 1022)]

/-- Nor rounded below by what lies from halfway before it, where the grid does not change. -/
theorem whole_le_nearestUnits_iff (hpos : 0 < whole) (hsmall : whole < twoTo 32)
    (hinside : whole ≠ twoTo whole.log2) (hdenominator : 0 < denominator) :
    whole * unitsPerOne ≤ nearestUnits (digits * unitsPerOne) denominator
      ↔ whole * twoTo 53 * denominator ≤ digits * twoTo 53 + twoTo whole.log2 * denominator := by
  obtain ⟨heven, hlow, hhigh, hwhole⟩ := whole_significand hpos hsmall
  have hne : whole ≠ 0 := by omega
  have hlog : whole.log2 < 32 := (Nat.log2_lt hne).2 hsmall
  have hunits : unitsPerOne = twoTo 1022 * twoTo 52 := by
    unfold unitsPerOne
    rw [← twoTo_add]
  have hspread : twoTo whole.log2 * twoTo (52 - whole.log2) = twoTo 52 := by
    rw [← twoTo_add]
    congr 1
    omega
  have hdouble : twoTo 53 = 2 * twoTo 52 := Nat.mul_comm _ _
  have habove : twoTo 52 < whole * twoTo (52 - whole.log2) := by
    rw [← hspread]
    exact Nat.mul_lt_mul_of_pos_right
      (Nat.lt_of_le_of_ne (Nat.log2_self_le hne) (Ne.symm hinside)) (twoTo_pos _)
  rw [hwhole, le_nearestUnits_iff hdenominator heven habove (Nat.le_of_lt hhigh), twoTo_add]
  have hleft : 2 * (whole * twoTo (52 - whole.log2)) * (twoTo 1022 * twoTo whole.log2)
        * denominator
      = whole * twoTo 53 * denominator * twoTo 1022 := by
    rw [hdouble, ← hspread]
    ring
  have hright : 2 * (digits * unitsPerOne) + twoTo 1022 * twoTo whole.log2 * denominator
      = (digits * twoTo 53 + twoTo whole.log2 * denominator) * twoTo 1022 := by
    rw [hunits, hdouble]
    ring
  rw [hleft, hright, Nat.mul_le_mul_right_iff (twoTo_pos 1022)]

/-- Below a power of two the grid is twice as fine, and halfway is half as far. -/
theorem twoTo_le_nearestUnits_iff {exponent : Nat} (hdenominator : 0 < denominator) :
    twoTo exponent * unitsPerOne ≤ nearestUnits (digits * unitsPerOne) denominator
      ↔ twoTo exponent * twoTo 54 * denominator
        ≤ digits * twoTo 54 + twoTo exponent * denominator := by
  have hunits : unitsPerOne = twoTo 53 * twoTo 1021 := by
    unfold unitsPerOne
    rw [← twoTo_add]
  have hdouble : twoTo 54 = 2 * twoTo 53 := Nat.mul_comm _ _
  have hwhole : twoTo exponent * unitsPerOne = twoTo 53 * twoTo (1021 + exponent) := by
    rw [hunits, twoTo_add]
    ring
  have heven : twoTo 53 % 2 = 0 := by decide
  have hbelow : twoTo 52 < twoTo 53 := by decide
  rw [hwhole, le_nearestUnits_iff hdenominator heven hbelow (Nat.le_refl _), twoTo_add]
  have hleft : 2 * twoTo 53 * (twoTo 1021 * twoTo exponent) * denominator
      = twoTo exponent * twoTo 54 * denominator * twoTo 1021 := by
    rw [hdouble]
    ring
  have hright : 2 * (digits * unitsPerOne) + twoTo 1021 * twoTo exponent * denominator
      = (digits * twoTo 54 + twoTo exponent * denominator) * twoTo 1021 := by
    rw [hunits, hdouble]
    ring
  rw [hleft, hright, Nat.mul_le_mul_right_iff (twoTo_pos 1021)]

end Whole

/-! ## §5. The rationals that round to a whole number. -/

/-- How far above a whole number the next binary64 value is. -/
def gapAbove (whole : Nat) : ℚ := 2 ^ whole.log2 / 2 ^ 52

/-- How far below it the one before is: half as far, if the number is a power of two. -/
def gapBelow (whole : Nat) : ℚ :=
  if whole = twoTo whole.log2 then gapAbove whole / 2 else gapAbove whole

/-- The rationals from halfway before a whole number to halfway beyond it. -/
def RoundsTo (value : ℚ) (whole : Nat) : Prop :=
  whole - gapBelow whole / 2 ≤ value ∧ value ≤ whole + gapAbove whole / 2

theorem cast_twoTo (exponent : Nat) : ((twoTo exponent : Nat) : ℚ) = 2 ^ exponent :=
  Nat.cast_pow 2 exponent

theorem cast_tenTo (exponent : Nat) : ((tenTo exponent : Nat) : ℚ) = 10 ^ exponent :=
  Nat.cast_pow 10 exponent

/-- A quotient rounds to a whole number, in units, exactly from halfway before it to halfway
beyond it. -/
theorem nearestUnits_eq_whole_iff {digits denominator whole : Nat} (hpos : 0 < whole)
    (hsmall : whole < twoTo 32) (hdenominator : 0 < denominator) :
    nearestUnits (digits * unitsPerOne) denominator = whole * unitsPerOne
      ↔ RoundsTo (digits / denominator) whole := by
  have hden : (0 : ℚ) < denominator := by exact_mod_cast hdenominator
  have hupper : nearestUnits (digits * unitsPerOne) denominator ≤ whole * unitsPerOne
      ↔ (digits / denominator : ℚ) ≤ whole + gapAbove whole / 2 := by
    rw [nearestUnits_le_whole_iff hpos hsmall hdenominator, div_le_iff₀ hden, gapAbove,
      ← @Nat.cast_le ℚ]
    push_cast [cast_twoTo]
    constructor <;> intro h <;> linarith
  have hlower : whole * unitsPerOne ≤ nearestUnits (digits * unitsPerOne) denominator
      ↔ (whole - gapBelow whole / 2 : ℚ) ≤ digits / denominator := by
    rw [le_div_iff₀ hden, gapBelow, gapAbove]
    by_cases hpower : whole = twoTo whole.log2
    · rw [if_pos hpower]
      have hcast : (2 : ℚ) ^ whole.log2 = whole := by rw [← cast_twoTo, ← hpower]
      have hbound := @twoTo_le_nearestUnits_iff digits denominator whole.log2 hdenominator
      rw [← hpower] at hbound
      rw [hbound, hcast, ← @Nat.cast_le ℚ]
      push_cast [cast_twoTo]
      constructor <;> intro h <;> linarith
    · rw [if_neg hpower, whole_le_nearestUnits_iff hpos hsmall hpower hdenominator,
        ← @Nat.cast_le ℚ]
      push_cast [cast_twoTo]
      constructor <;> intro h <;> linarith
  rw [le_antisymm_iff, hupper, hlower, and_comm]
  rfl

/-! ## §6. Reading a decimal as a whole number. -/

/-- A number below one unit goes to no whole number but zero. -/
theorem nearestUnits_lt_whole {numerator denominator whole : Nat} (hpos : 0 < whole)
    (h : numerator / denominator = 0) :
    nearestUnits numerator denominator < whole * unitsPerOne := by
  have hzero : numerator / denominator < twoTo 0 := by
    rw [h]
    exact twoTo_pos 0
  have hone : twoTo 0 < unitsPerOne := by
    unfold unitsPerOne
    exact Nat.lt_of_lt_of_le (by decide : twoTo 0 < twoTo 1) (twoTo_le (by decide))
  calc nearestUnits numerator denominator
    _ ≤ twoTo 0 := nearestUnits_le_of_lt hzero
    _ < unitsPerOne := hone
    _ ≤ whole * unitsPerOne := Nat.le_mul_of_pos_left _ hpos

/-- Whether a rounded quotient is a whole number, is seen in units. -/
theorem natural?_ofRatio_iff {digits denominator whole : Nat} (hsmall : whole < twoTo 32) :
    (ofRatio false digits denominator).natural? = some whole
      ↔ nearestUnits (digits * unitsPerOne) denominator = whole * unitsPerOne := by
  have hexact : isBinary64 (whole * unitsPerOne) = true :=
    isBinary64_whole (Nat.lt_of_lt_of_le hsmall (twoTo_le (by decide)))
  have hbound : whole * unitsPerOne < unitsBeyond :=
    of_decide_eq_true (Bool.and_eq_true_iff.1 hexact).2
  rw [natural?_eq_some_iff, ofRatio]
  constructor
  · intro h
    by_cases hfits : nearestUnits (digits * unitsPerOne) denominator < unitsBeyond
    · rw [if_pos hfits] at h
      exact (finite.inj h).2
    · rw [if_neg hfits] at h
      cases h
  · intro h
    rw [h, if_pos hbound]

/-- A quotient of less than one unit is zero and no positive number. -/
theorem natural?_zero_iff {digits denominator whole : Nat} (hpos : 0 < whole)
    (hsmall : whole < twoTo 32) (h : digits * unitsPerOne / denominator = 0) :
    (finite false 0).natural? = some whole
      ↔ (ofRatio false digits denominator).natural? = some whole := by
  have hless := nearestUnits_lt_whole hpos h
  have hunits : 0 < whole * unitsPerOne := Nat.mul_pos hpos unitsPerOne_pos
  rw [natural?_ofRatio_iff hsmall, natural?_eq_some_iff]
  refine iff_of_false ?_ (Nat.ne_of_lt hless)
  intro heq
  exact absurd (finite.inj heq).2 (Nat.ne_of_lt hunits)

/-- Where a decimal is not worked out because it is too small, it is less than one unit. -/
theorem digits_lt_of_log2 {digits places : Nat} (h : digits.log2 + 1 + 1075 ≤ 3 * places) :
    digits * unitsPerOne / tenTo places = 0 := by
  have hdigits : digits < twoTo (digits.log2 + 1) := Nat.lt_log2_self
  have hone : unitsPerOne = twoTo 1074 := by unfold unitsPerOne; rfl
  have height : twoTo (3 * places) ≤ tenTo places := by
    show 2 ^ (3 * places) ≤ 10 ^ places
    rw [Nat.pow_mul]
    exact Nat.pow_le_pow_left (by decide) places
  refine Nat.div_eq_of_lt ?_
  calc digits * unitsPerOne
    _ < twoTo (digits.log2 + 1) * unitsPerOne :=
      Nat.mul_lt_mul_of_pos_right hdigits unitsPerOne_pos
    _ = twoTo (digits.log2 + 1 + 1074) := by rw [hone, ← twoTo_add]
    _ ≤ twoTo (3 * places) := twoTo_le (by omega)
    _ ≤ tenTo places := height

/-- **The decimals that read as a whole number** of at most thirty two bits are those that round
to it. -/
theorem natural?_ofDecimal_iff {digits places whole : Nat} (hpos : 0 < whole)
    (hsmall : whole < twoTo 32) :
    (ofDecimal false digits (-(places : Int))).natural? = some whole
      ↔ RoundsTo (digits / 10 ^ places) whole := by
  rw [← cast_tenTo, ← nearestUnits_eq_whole_iff hpos hsmall (tenTo_pos places),
    ← natural?_ofRatio_iff hsmall]
  cases places with
  | zero =>
      show (ofDecimal false digits (.ofNat 0)).natural? = some whole ↔ _
      have hscale : tenTo 0 = 1 := rfl
      by_cases hzero : digits = 0
      · subst hzero
        rw [ofDecimal, if_pos rfl]
        exact natural?_zero_iff hpos hsmall (by rw [Nat.zero_mul, Nat.zero_div])
      · rw [ofDecimal, if_neg hzero, if_neg (by decide), hscale, Nat.mul_one]
  | succ less =>
      show (ofDecimal false digits (.negSucc less)).natural? = some whole ↔ _
      rw [ofDecimal]
      split
      · next htiny => exact natural?_zero_iff hpos hsmall (digits_lt_of_log2 htiny)
      · exact Iff.rfl

/-- A whole number rounds to no other than itself. -/
theorem roundsTo_natCast_iff {value whole : Nat} (hpos : 0 < whole) (hsmall : whole < twoTo 32) :
    RoundsTo value whole ↔ whole = value := by
  have hlog : whole.log2 < 32 := (Nat.log2_lt (by omega)).2 hsmall
  have hpower : (2 : ℚ) ^ whole.log2 ≤ 2 ^ 31 := pow_le_pow_right₀ (by norm_num) (by omega)
  have hpositive : (0 : ℚ) < 2 ^ whole.log2 := by positivity
  have habove : 0 ≤ gapAbove whole / 2 ∧ gapAbove whole / 2 < 1 := by
    unfold gapAbove
    constructor
    · positivity
    · linarith
  have hbelow : 0 ≤ gapBelow whole / 2 ∧ gapBelow whole / 2 < 1 := by
    unfold gapBelow
    split
    · constructor <;> linarith [habove.1, habove.2]
    · exact habove
  unfold RoundsTo
  constructor
  · intro h
    have hlow : (whole : ℚ) < value + 1 := by linarith [h.1, hbelow.2]
    have hhigh : (value : ℚ) < whole + 1 := by linarith [h.2, habove.2]
    have hlow' : whole < value + 1 := by exact_mod_cast hlow
    have hhigh' : value < whole + 1 := by exact_mod_cast hhigh
    omega
  · intro h
    subst h
    exact ⟨by linarith [hbelow.1], by linarith [habove.1]⟩

end Fixity.Number
