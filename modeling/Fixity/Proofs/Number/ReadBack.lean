/-
  Fixity.Proofs.Number.ReadBack
  ────────────────────────────────
  **A NUMBER READS BACK FROM ITS TEXT.**

  The text of a finite number without a sign is one numeral: digits, perhaps with
  a point and more digits.  Read as a literal it gives the number again, whether
  its digits were found on a grid or stand for its exact value.

  A count of units is a binary64 value when it lies on the grid of its own
  magnitude and below 2¹⁰²⁴.  No other count is the value of any text.

  Main results: `spells_text` (the text of a binary64 value is one numeral),
  `ofText?_text_iff` (exactly the binary64 values read back) and `spells_natural`
  (the digits of a whole number).
-/
import Fixity.Number.Shortest
import Fixity.Proofs.Scanning.Pieces

namespace Fixity

open Number

/-! ## §1. Rows of digits. -/

namespace Number

/-- A row of decimal digits. -/
def IsDigits (text : List Char) : Prop := ∀ c ∈ text, c.isDigit = true

theorem isDigits_toDigits (n : Nat) : IsDigits (Nat.toDigits 10 n) := fun _ hmem =>
  Nat.isDigit_of_mem_toDigits (by decide) (by decide) hmem

/-- The digits of a number spell it. -/
theorem digitsValue_toDigits (n : Nat) : digitsValue (Nat.toDigits 10 n) = n := by
  show Nat.ofDigitChars 10 (Nat.toDigits 10 n) 0 = n
  exact Nat.ofDigitChars_ten_toDigits

/-- Zeros in front of a row do not count. -/
theorem digitsValue_zeros (n : Nat) (digits : List Char) :
    digitsValue (List.replicate n '0' ++ digits) = digitsValue digits := by
  have hzeros : digitsValue (List.replicate n '0') = 0 := by
    show Nat.ofDigitChars 10 (List.replicate n '0') 0 = 0
    rw [Nat.ofDigitChars_replicate_zero, Nat.mul_zero]
  rw [digitsValue_append, hzeros, Nat.zero_mul, Nat.zero_add]

/-- A number below a power of ten fills a row of that width. -/
theorem Decimal.toList_padded {width value : Nat} (hpos : 0 < width) (h : value < tenTo width) :
    IsDigits (Decimal.padded width value).toList
      ∧ (Decimal.padded width value).toList.length = width
      ∧ digitsValue (Decimal.padded width value).toList = value := by
  have hwidth : (Nat.toDigits 10 value).length ≤ width :=
    (Nat.length_toDigits_le_iff (by decide) hpos).2 h
  simp only [Decimal.padded, String.toList_ofList]
  refine ⟨?_, ?_, ?_⟩
  · intro c hmem
    rcases List.mem_append.1 hmem with hmem | hmem
    · rw [(List.mem_replicate.1 hmem).2]
      rfl
    · exact isDigits_toDigits value c hmem
  · rw [List.length_append, List.length_replicate]
    omega
  · rw [digitsValue_zeros, digitsValue_toDigits]

/-! ## §2. What a numeral reads as. -/

/-- A digit is no letter. -/
theorem toLower_of_isDigit {c : Char} (hc : c.isDigit = true) : c.toLower = c := by
  have hbelow : ¬ ('A'.val ≤ c.val ∧ c.val ≤ 'Z'.val) := by
    simp only [Char.isDigit, Bool.and_eq_true, decide_eq_true_eq, ge_iff_le] at hc
    intro hletter
    have hle : 'A'.val ≤ '9'.val := UInt32.le_trans hletter.1 hc.2
    exact absurd hle (by decide)
  unfold Char.toLower
  exact dif_neg hbelow

/-- A text that starts with a digit has no sign and is no word. -/
theorem ofChars?_of_digit {c : Char} (hc : c.isDigit = true) (rest : List Char) :
    ofChars? (c :: rest) = decimal? false (c :: rest) := by
  have hword : ∀ (d : Char) (more : List Char), d.isDigit = false →
      String.ofList ((c :: rest).map Char.toLower) ≠ String.ofList (d :: more) := by
    intro d more hd heq
    have hhead := (List.cons.inj (String.ofList_inj.1 heq)).1
    rw [← hhead, toLower_of_isDigit hc, hc] at hd
    exact absurd hd nofun
  -- a sign is no digit
  have hsign : splitSign (c :: rest) = (false, c :: rest) := by
    unfold splitSign
    split
    · next heq => cases heq; exact absurd hc (by decide)
    · next heq => cases heq; exact absurd hc (by decide)
    · rfl
  have hinf := hword 'i' ['n', 'f'] rfl
  have hinfinity := hword 'i' ['n', 'f', 'i', 'n', 'i', 't', 'y'] rfl
  have hnan := hword 'n' ['a', 'n'] rfl
  simp only [ofChars?, hsign]
  rw [if_neg (not_or.2 ⟨hinf, hinfinity⟩), if_neg hnan]

/-- A row of digits reads as a whole number. -/
theorem ofChars?_digits {digits : List Char} (hne : digits ≠ []) (h : IsDigits digits) :
    ofChars? digits = some (ofDecimal false (digitsValue digits) 0) := by
  obtain ⟨c, rest, rfl⟩ := List.exists_cons_of_ne_nil hne
  have htake := List.takeWhile_eq_self_iff.2 h
  have hdrop := List.dropWhile_eq_nil_iff.2 h
  rw [ofChars?_of_digit (h c List.mem_cons_self)]
  simp [decimal?, splitPoint, htake, hdrop, exponent?]

/-- A point and a row of digits count in the unit of the last digit. -/
theorem ofChars?_point {digits fraction : List Char} (hne : digits ≠ []) (h : IsDigits digits)
    (hfraction : IsDigits fraction) :
    ofChars? (digits ++ '.' :: fraction)
      = some (ofDecimal false (digitsValue (digits ++ fraction)) (-(fraction.length : Int))) := by
  obtain ⟨c, rest, rfl⟩ := List.exists_cons_of_ne_nil hne
  have hpoint : Char.isDigit '.' = false := rfl
  have htake : (c :: rest ++ '.' :: fraction).takeWhile Char.isDigit = c :: rest := by
    rw [List.takeWhile_append_of_pos h]
    simp [hpoint]
  have hdrop : (c :: rest ++ '.' :: fraction).dropWhile Char.isDigit = '.' :: fraction := by
    rw [List.dropWhile_append_of_pos h]
    simp [hpoint]
  have htake' := List.takeWhile_eq_self_iff.2 hfraction
  have hdrop' := List.dropWhile_eq_nil_iff.2 hfraction
  rw [List.cons_append] at htake hdrop
  rw [List.cons_append, ofChars?_of_digit (h c List.mem_cons_self)]
  simp [decimal?, splitPoint, htake, hdrop, htake', hdrop', exponent?]

/-! ## §3. A numeral is one token. -/

/-- A text that is one numeral and reads as a number. -/
def Spells (text : String) (value : Number) : Prop :=
  split? text.toList = some (⟨some .number, text.toList⟩, []) ∧ ofText? text = some value

/-- A digit starts no word. -/
theorem isWordStart_of_isDigit {c : Char} (hc : c.isDigit = true) : isWordStart c = false := by
  simp only [Char.isDigit, Bool.and_eq_true, decide_eq_true_eq, ge_iff_le] at hc
  cases hword : isWordStart c with
  | false => rfl
  | true =>
      -- the letters and the underscore all lie above the digits
      have habove : '9'.val < c.val := by
        unfold isWordStart Char.isAlpha Char.isUpper Char.isLower at hword
        simp only [Bool.or_eq_true, Bool.and_eq_true, decide_eq_true_eq, ge_iff_le,
          beq_iff_eq] at hword
        rcases hword with (hupper | hlower) | rfl
        · exact UInt32.lt_of_lt_of_le (by decide) hupper.1
        · exact UInt32.lt_of_lt_of_le (by decide) hlower.1
        · decide
      exact absurd hc.2 (UInt32.not_le.2 habove)

/-- What starts with a digit and is taken whole as a number is one numeral. -/
theorem split?_number {c : Char} {rest : List Char} (hc : c.isDigit = true)
    (h : splitNumber (c :: rest) = (c :: rest, [])) :
    split? (c :: rest) = some (⟨some .number, c :: rest⟩, []) := by
  simp [split?, isWordStart_of_isDigit hc, hc, h]

/-- A row of digits spells a whole number. -/
theorem spells_digits {digits : List Char} (hne : digits ≠ []) (h : IsDigits digits) :
    Spells (String.ofList digits) (ofDecimal false (digitsValue digits) 0) := by
  have htaken : splitNumber (digits ++ []) = (digits, []) :=
    splitNumber_whole h (by simp) (by simp)
  rw [List.append_nil] at htaken
  obtain ⟨c, rest, rfl⟩ := List.exists_cons_of_ne_nil hne
  refine ⟨?_, ?_⟩
  · rw [String.toList_ofList]
    exact split?_number (h c List.mem_cons_self) htaken
  · rw [ofText?, String.toList_ofList]
    exact ofChars?_digits hne h

/-- Two rows with a point between them spell a decimal. -/
theorem spells_point {digits fraction : List Char} (hne : digits ≠ []) (h : IsDigits digits)
    (hne' : fraction ≠ []) (h' : IsDigits fraction) :
    Spells (String.ofList (digits ++ '.' :: fraction))
      (ofDecimal false (digitsValue (digits ++ fraction)) (-(fraction.length : Int))) := by
  have htaken : splitNumber (digits ++ '.' :: (fraction ++ [])) = (digits ++ '.' :: fraction, []) :=
    splitNumber_point h hne' h' (by simp)
  rw [List.append_nil] at htaken
  refine ⟨?_, ?_⟩
  · rw [String.toList_ofList]
    obtain ⟨c, rest, rfl⟩ := List.exists_cons_of_ne_nil hne
    exact split?_number (h c List.mem_cons_self) htaken
  · rw [ofText?, String.toList_ofList]
    exact ofChars?_point hne h h'

/-! ## §4. The values of binary64. -/

/-- Whether a count of units is a binary64 value: it is on the grid of its magnitude,
and below all that is beyond the range. -/
def isBinary64 (units : Nat) : Bool := units % grain units == 0 && decide (units < unitsBeyond)

/-- A quotient that is a binary64 value is not rounded. -/
theorem ofRatio_exact {units numerator denominator : Nat} (h : isBinary64 units = true)
    (hpos : 0 < denominator) (hexact : numerator * unitsPerOne = units * denominator) :
    ofRatio false numerator denominator = finite false units := by
  simp only [isBinary64, Bool.and_eq_true, beq_iff_eq, decide_eq_true_eq] at h
  obtain ⟨hgrid, hbound⟩ := h
  have hgrain : 0 < grain units := twoTo_pos _
  have hunits : units = units / grain units * grain units :=
    (Nat.div_mul_cancel (Nat.dvd_of_mod_eq_zero hgrid)).symm
  have hnearest : nearestUnits (numerator * unitsPerOne) denominator = units := by
    rw [hexact, nearestUnits, Nat.mul_div_cancel _ hpos]
    -- in steps of the grid the quotient is a whole number
    have hsteps : units * denominator = units / grain units * (denominator * grain units) := by
      calc units * denominator
        _ = units / grain units * grain units * denominator := by rw [← hunits]
        _ = units / grain units * (denominator * grain units) := by
          rw [Nat.mul_assoc, Nat.mul_comm (grain units)]
    rw [hsteps, roundHalfEven_mul _ (Nat.mul_pos hpos hgrain)]
    exact hunits.symm
  rw [ofRatio, hnearest]
  exact if_pos hbound

/-- Below 2^(53 + exponent) the steps of the grid divide 2^exponent. -/
theorem grain_dvd {whole exponent : Nat} (h : whole < twoTo (53 + exponent)) :
    grain whole ∣ twoTo exponent := by
  have hle : whole.log2 + 1 - 53 ≤ exponent := by
    by_cases hzero : whole = 0
    · rw [hzero]
      exact Nat.zero_le _
    · have hlog : whole.log2 < 53 + exponent := (Nat.log2_lt hzero).2 h
      omega
  obtain ⟨more, hmore⟩ := Nat.exists_eq_add_of_le hle
  refine ⟨twoTo more, ?_⟩
  rw [grain, ← twoTo_add, ← hmore]

/-- A whole number of at most fifty three bits is a binary64 value. -/
theorem isBinary64_whole {n : Nat} (h : n < twoTo 53) : isBinary64 (n * unitsPerOne) = true := by
  have hone : unitsPerOne = twoTo 1074 := by unfold unitsPerOne; rfl
  have hbeyond : unitsBeyond = twoTo (53 + 1074 + 971) := by unfold unitsBeyond; rfl
  have hbound : n * unitsPerOne < twoTo (53 + 1074) := by
    rw [hone, twoTo_add]
    exact Nat.mul_lt_mul_of_pos_right h (twoTo_pos 1074)
  have hgrid : n * unitsPerOne % grain (n * unitsPerOne) = 0 := by
    have hdvd : grain (n * unitsPerOne) ∣ twoTo 1074 := grain_dvd hbound
    rw [← hone] at hdvd
    exact Nat.mod_eq_zero_of_dvd (Nat.dvd_trans hdvd (Nat.dvd_mul_left _ _))
  have hrange : n * unitsPerOne < unitsBeyond := by
    rw [hbeyond, twoTo_add (53 + 1074)]
    exact Nat.lt_of_lt_of_le hbound (Nat.le_mul_of_pos_right _ (twoTo_pos 971))
  simp [isBinary64, hgrid, hrange]

/-- Rounding leads to the grid. -/
theorem grain_dvd_nearestUnits (numerator denominator : Nat) :
    grain (nearestUnits numerator denominator) ∣ nearestUnits numerator denominator := by
  have hvalue : nearestUnits numerator denominator
      = roundHalfEven numerator (denominator * grain (numerator / denominator))
        * grain (numerator / denominator) := rfl
  rw [hvalue]
  generalize hwhole : numerator / denominator = whole
  generalize hexponent : whole.log2 + 1 - 53 = exponent
  have hgrain : grain whole = twoTo exponent := by rw [grain, hexponent]
  have hround := roundHalfEven_le numerator (denominator * grain whole)
  generalize roundHalfEven numerator (denominator * grain whole) = rounded at hround ⊢
  have hwhole' : whole < twoTo (53 + exponent) := by
    by_cases hzero : whole = 0
    · rw [hzero]
      exact twoTo_pos _
    · exact (Nat.log2_lt hzero).1 (by omega)
  have hle : rounded ≤ twoTo 53 := by
    rw [← Nat.div_div_eq_div_mul, hwhole, hgrain] at hround
    have hquotient : whole / twoTo exponent < twoTo 53 :=
      (Nat.div_lt_iff_lt_mul (twoTo_pos exponent)).2 (by rwa [← twoTo_add])
    omega
  rw [hgrain]
  rcases Nat.lt_or_eq_of_le hle with hlt | heq
  · have hbelow : rounded * twoTo exponent < twoTo (53 + exponent) := by
      rw [twoTo_add]
      exact Nat.mul_lt_mul_of_pos_right hlt (twoTo_pos exponent)
    exact Nat.dvd_trans (grain_dvd hbelow) (Nat.dvd_mul_left _ _)
  · -- the value was rounded up to the next power of two, where the steps are twice as long
    have hpower : rounded * twoTo exponent = twoTo (53 + exponent) := by rw [heq, twoTo_add]
    have hbelow : twoTo (53 + exponent) < twoTo (53 + (exponent + 1)) := by
      have hpos := twoTo_pos (53 + exponent)
      rw [← Nat.add_assoc, twoTo_succ]
      omega
    have hdvd : twoTo (exponent + 1) ∣ twoTo (53 + exponent) :=
      ⟨twoTo 52, by rw [← twoTo_add]; congr 1; omega⟩
    rw [hpower]
    exact Nat.dvd_trans (grain_dvd hbelow) hdvd

/-- A quotient that is rounded to a finite number is rounded to a binary64 value. -/
theorem isBinary64_of_ofRatio {negative sign : Bool} {numerator denominator units : Nat}
    (h : ofRatio negative numerator denominator = finite sign units) : isBinary64 units = true := by
  simp only [ofRatio] at h
  split at h
  · next hbound =>
    obtain ⟨-, rfl⟩ := finite.inj h
    simp [isBinary64, hbound,
      Nat.mod_eq_zero_of_dvd (grain_dvd_nearestUnits (numerator * unitsPerOne) denominator)]
  · exact absurd h nofun

/-- So is every decimal. -/
theorem isBinary64_of_ofDecimal {negative sign : Bool} {digits units : Nat} {exponent : Int}
    (h : ofDecimal negative digits exponent = finite sign units) : isBinary64 units = true := by
  have hzero : isBinary64 0 = true := by simpa using isBinary64_whole (twoTo_pos 53)
  cases exponent with
  | ofNat exponent =>
      simp only [ofDecimal] at h
      split at h
      · obtain ⟨-, rfl⟩ := finite.inj h
        exact hzero
      · split at h
        · exact absurd h nofun
        · exact isBinary64_of_ofRatio h
  | negSucc less =>
      simp only [ofDecimal] at h
      split at h
      · obtain ⟨-, rfl⟩ := finite.inj h
        exact hzero
      · exact isBinary64_of_ofRatio h

/-- Every finite number that a text reads as is a binary64 value. -/
theorem isBinary64_of_ofText? {text : String} {sign : Bool} {units : Nat}
    (h : ofText? text = some (finite sign units)) : isBinary64 units = true := by
  simp only [ofText?, ofChars?] at h
  split at h
  · exact absurd h nofun
  · split at h
    · exact absurd h nofun
    · simp only [decimal?] at h
      split at h
      · exact absurd h nofun
      · obtain ⟨exponent, -, hvalue⟩ := Option.map_eq_some_iff.1 h
        exact isBinary64_of_ofDecimal hvalue

/-! ## §5. Decimals written out. -/

/-- A decimal that rounds to a number is written as a numeral that reads as it. -/
theorem Decimal.spells_text {decimal : Decimal} {units : Nat}
    (h : decimal.round = finite false units) : Spells decimal.text (finite false units) := by
  obtain ⟨digits, exponent⟩ := decimal
  cases exponent with
  | ofNat exponent =>
      -- with its zeros written out the decimal is a whole number of the same value
      have hspells := spells_digits Nat.toDigits_ne_nil
        (isDigits_toDigits (digits * tenTo exponent))
      rw [digitsValue_toDigits] at hspells
      have hvalue : ofDecimal false (digits * tenTo exponent) 0 = finite false units := by
        by_cases hzero : digits = 0
        · subst hzero
          simpa [Decimal.round, ofDecimal] using h
        · have hne : digits * tenTo exponent ≠ 0 :=
            Nat.mul_ne_zero hzero (Nat.pos_iff_ne_zero.1 (tenTo_pos exponent))
          have hround : ofRatio false (digits * tenTo exponent) 1 = finite false units := by
            simp only [Decimal.round, ofDecimal, if_neg hzero] at h
            split at h
            · exact absurd h nofun
            · exact h
          show (if digits * tenTo exponent = 0 then finite false 0
            else if 400 < 0 then infinite false
            else ofRatio false (digits * tenTo exponent * tenTo 0) 1) = _
          rw [if_neg hne, if_neg (Nat.not_lt_zero 400), show tenTo 0 = 1 from rfl, Nat.mul_one]
          exact hround
      rw [hvalue] at hspells
      exact hspells
  -- the digits are cut at the point, and the rows before and after it put together are all of them
  | negSucc less =>
      have hscale := tenTo_pos (less + 1)
      have hbelow : digits % tenTo (less + 1) < tenTo (less + 1) := Nat.mod_lt _ hscale
      obtain ⟨hdigits, hlength, hvalue⟩ := Decimal.toList_padded (Nat.succ_pos less) hbelow
      generalize hfraction : (padded (less + 1) (digits % tenTo (less + 1))).toList = fraction
        at hdigits hlength hvalue
      have hne : fraction ≠ [] := by
        rw [← List.length_pos_iff, hlength]
        exact Nat.succ_pos less
      have hspells := spells_point Nat.toDigits_ne_nil
        (isDigits_toDigits (digits / tenTo (less + 1))) hne hdigits
      have htext : (Decimal.mk digits (.negSucc less)).text
          = String.ofList (Nat.toDigits 10 (digits / tenTo (less + 1)) ++ '.' :: fraction) := by
        rw [← String.toList_inj, String.toList_ofList, ← hfraction]
        simp [Decimal.text]
      have hall : digitsValue (Nat.toDigits 10 (digits / tenTo (less + 1)) ++ fraction)
          = digits := by
        rw [digitsValue_append, digitsValue_toDigits, hlength, hvalue, Nat.mul_comm]
        exact Nat.div_add_mod digits (tenTo (less + 1))
      rw [hall, hlength] at hspells
      rw [htext, ← h]
      exact hspells

/-- Ten is five times two, in every power. -/
theorem mul_tenTo (units exponent : Nat) :
    units * Nat.pow 5 exponent * twoTo exponent = units * tenTo exponent := by
  show units * 5 ^ exponent * 2 ^ exponent = units * 10 ^ exponent
  rw [Nat.mul_assoc, ← Nat.mul_pow]

/-- A power of five has more than two binary digits for each factor. -/
theorem le_log2_mul_pow {units : Nat} (hpos : 0 < units) (exponent : Nat) :
    2 * exponent ≤ (units * Nat.pow 5 exponent).log2 := by
  have hfive : 0 < Nat.pow 5 exponent := Nat.pow_pos (by decide)
  rw [Nat.le_log2 (Nat.pos_iff_ne_zero.1 (Nat.mul_pos hpos hfive))]
  calc 2 ^ (2 * exponent) = 4 ^ exponent := by rw [Nat.pow_mul]
    _ ≤ 5 ^ exponent := Nat.pow_le_pow_left (by decide) exponent
    _ ≤ units * 5 ^ exponent := Nat.le_mul_of_pos_left _ hpos

/-- The exact value of a positive binary64 value rounds to itself. -/
theorem round_exact {units : Nat} (h : isBinary64 units = true) (hpos : 0 < units) :
    (Decimal.mk (decimalUnits units) (-1074)).round = finite false units := by
  have hexact : decimalUnits units * unitsPerOne = units * tenTo 1074 := by
    unfold decimalUnits unitsPerOne
    generalize 1074 = exponent
    exact mul_tenTo units exponent
  have hlog : ¬ (decimalUnits units).log2 + 1 + 1075 ≤ 3 * (1073 + 1) := by
    have hle : 2 * 1074 ≤ (decimalUnits units).log2 := by
      unfold decimalUnits
      generalize 1074 = exponent
      exact le_log2_mul_pow hpos exponent
    omega
  show (if (decimalUnits units).log2 + 1 + 1075 ≤ 3 * (1073 + 1) then finite false 0
    else ofRatio false (decimalUnits units) (tenTo (1073 + 1))) = _
  rw [if_neg hlog]
  exact ofRatio_exact h (tenTo_pos _) hexact

/-! ## §6. The texts of numbers. -/

/-- The text of a binary64 value without a sign is a numeral that reads as it. -/
theorem spells_text {units : Nat} (h : isBinary64 units = true) :
    Spells (finite false units).text (finite false units) := by
  show Spells (magnitudeText units) (finite false units)
  by_cases hzero : units = 0
  · subst hzero
    exact ⟨by decide, by decide⟩
  · rw [magnitudeText, if_neg hzero]
    apply Decimal.spells_text
    cases hshortest : shortest? units with
    -- the shortest decimal was chosen because it reads back
    | some decimal =>
        have hback := shortest?_reads_back hshortest
        rw [shortest, hshortest]
        simpa [readsBack] using hback
    | none =>
        rw [shortest, hshortest]
        exact round_exact h (Nat.pos_of_ne_zero hzero)

/-- The binary64 values are exactly the ones that read back from their text. -/
theorem ofText?_text_iff {units : Nat} :
    ofText? (finite false units).text = some (finite false units) ↔ isBinary64 units = true :=
  ⟨isBinary64_of_ofText?, fun h => (spells_text h).2⟩

/-- The digits of a whole number of at most fifty three bits read as it. -/
theorem spells_natural {n : Nat} (h : n < twoTo 53) :
    Spells (toString n) (finite false (n * unitsPerOne)) := by
  have hspells := spells_digits Nat.toDigits_ne_nil (isDigits_toDigits n)
  rw [digitsValue_toDigits] at hspells
  have hvalue : ofDecimal false n 0 = finite false (n * unitsPerOne) := by
    by_cases hzero : n = 0
    · subst hzero
      simp [ofDecimal]
    · show (if n = 0 then finite false 0 else if 400 < 0 then infinite false
        else ofRatio false (n * tenTo 0) 1) = _
      rw [if_neg hzero, if_neg (Nat.not_lt_zero 400), show tenTo 0 = 1 from rfl, Nat.mul_one]
      exact ofRatio_exact (isBinary64_whole h) Nat.one_pos (Nat.mul_one _).symm
  rw [hvalue] at hspells
  exact hspells

end Number
end Fixity
