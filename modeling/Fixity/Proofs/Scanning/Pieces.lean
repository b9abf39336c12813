/-
  Fixity.Proofs.Scanning.Pieces
  ────────────────────────────────
  **WHERE A LEXEME ENDS.**

  Which lexeme a text starts with is decided by the characters of that lexeme and
  by the one after it.  So a lexeme stands by itself as well, and it does not
  change when the text is continued after a blank.

  Main results: `split?_self` (a token's text alone is that token), `split?_append`
  (a blank keeps what follows out of a token) and `split?_operator` (an operator
  character that starts no comment is a token of its own).
-/
import Mathlib.Data.List.TakeWhile
import Fixity.Lexeme
import Fixity.Operator

namespace Fixity

open Text (isBlank)
open Operator (isOperatorChar)

/-! ## §1. Runs of characters. -/

section Runs

variable {p : Char → Bool} {run rest : List Char}

/-- A run ends before a character that is not in it. -/
theorem takeWhile_run (h : ∀ c ∈ run, p c = true) (stop : ∀ c ∈ rest.head?, p c = false) :
    (run ++ rest).takeWhile p = run := by
  rw [List.takeWhile_append_of_pos h]
  cases rest with
  | nil => simp
  | cons c more => simp [stop c (by simp)]

theorem dropWhile_run (h : ∀ c ∈ run, p c = true) (stop : ∀ c ∈ rest.head?, p c = false) :
    (run ++ rest).dropWhile p = rest := by
  rw [List.dropWhile_append_of_pos h]
  cases rest with
  | nil => simp
  | cons c more => simp [stop c (by simp)]

/-- What is left after a run does not start with a character of it. -/
theorem head?_dropWhile (text : List Char) : ∀ c ∈ (text.dropWhile p).head?, p c = false := by
  intro c hc
  have hnot := List.head?_dropWhile_not p text
  rw [Option.mem_def.1 hc] at hnot
  simpa using hnot

/-- A run that a character ends is not changed by what follows that character. -/
theorem takeWhile_append_stop {stop : Char} (h : p stop = false)
    (text more : List Char) : (text ++ stop :: more).takeWhile p = text.takeWhile p := by
  induction text with
  | nil => simp [h]
  | cons c rest ih => simp only [List.cons_append, List.takeWhile_cons, ih]

theorem dropWhile_append_stop {stop : Char} (h : p stop = false)
    (text more : List Char) :
    (text ++ stop :: more).dropWhile p = text.dropWhile p ++ stop :: more := by
  induction text with
  | nil => simp [h]
  | cons c rest ih =>
      simp only [List.cons_append, List.dropWhile_cons, ih]
      split <;> rfl

end Runs

/-! ## §2. Blanks and operator characters. -/

/-- The characters of words are letters, digits and the underscore. -/
theorem ranges_of_isWordPart {c : Char} (h : isWordPart c = true) :
    (65 ≤ c.toNat ∧ c.toNat ≤ 90) ∨ (97 ≤ c.toNat ∧ c.toNat ≤ 122)
      ∨ (48 ≤ c.toNat ∧ c.toNat ≤ 57) ∨ c = '_' := by
  unfold isWordPart Char.isAlphanum Char.isAlpha Char.isUpper Char.isLower Char.isDigit at h
  simp only [Bool.or_eq_true, Bool.and_eq_true, decide_eq_true_eq, UInt32.le_iff_toNat_le,
    ge_iff_le, beq_iff_eq] at h
  change ((((65 ≤ c.toNat ∧ c.toNat ≤ 90) ∨ (97 ≤ c.toNat ∧ c.toNat ≤ 122)) ∨
    (48 ≤ c.toNat ∧ c.toNat ≤ 57)) ∨ c = '_') at h
  rcases h with ((h | h) | h) | h
  · exact .inl h
  · exact .inr (.inl h)
  · exact .inr (.inr (.inl h))
  · exact .inr (.inr (.inr h))

/-- The characters of words and numbers lie between the digits and the small letters. -/
theorem range_of_isWordPart {c : Char} (h : isWordPart c = true) :
    48 ≤ c.toNat ∧ c.toNat ≤ 122 := by
  rcases ranges_of_isWordPart h with h | h | h | rfl
  · omega
  · omega
  · omega
  · decide

/-- What can stand in no word starts none and is no digit. -/
theorem class_of_not_isWordPart {c : Char} (h : isWordPart c = false) :
    isWordStart c = false ∧ c.isDigit = false := by
  simp only [isWordPart, isWordStart, Char.isAlphanum, Bool.or_eq_false_iff] at h ⊢
  exact ⟨⟨h.1.1, h.2⟩, h.1.2⟩

/-- The blanks lie below the punctuation or beyond ASCII. -/
theorem range_of_isBlank {c : Char} (h : isBlank c = true) : c.toNat ≤ 32 ∨ 133 ≤ c.toNat := by
  simp only [isBlank, Text.blankRanges, List.any_cons, List.any_nil, Bool.or_eq_true,
    Bool.and_eq_true, decide_eq_true_eq, Bool.or_false] at h
  omega

/-- A blank ends a word and a number, and starts no comment. -/
theorem stops_of_isBlank {c : Char} (h : isBlank c = true) :
    isWordPart c = false ∧ c.isDigit = false ∧ c ≠ '.' ∧ c ≠ '/' := by
  have hrange := range_of_isBlank h
  have hpart : isWordPart c = false := by
    cases hc : isWordPart c with
    | false => rfl
    | true =>
        have := range_of_isWordPart hc
        omega
  refine ⟨hpart, (class_of_not_isWordPart hpart).2, ?_, ?_⟩
  · rintro rfl
    revert hrange
    decide
  · rintro rfl
    revert hrange
    decide

/-- Punctuation is neither a digit nor a blank, and stands in a word only as an underscore. -/
theorem class_of_isPunctuation {c : Char} (h : isPunctuation c = true) :
    c.isDigit = false ∧ isBlank c = false ∧ (c ≠ '_' → isWordPart c = false) := by
  have hrange : 33 ≤ c.toNat ∧ c.toNat ≤ 126 ∧ ¬ (48 ≤ c.toNat ∧ c.toNat ≤ 57)
      ∧ ¬ (65 ≤ c.toNat ∧ c.toNat ≤ 90) ∧ ¬ (97 ≤ c.toNat ∧ c.toNat ≤ 122) := by
    simp only [isPunctuation, punctuationRanges, List.any_cons, List.any_nil, Bool.or_eq_true,
      Bool.and_eq_true, decide_eq_true_eq, Bool.or_false] at h
    omega
  refine ⟨?_, ?_, ?_⟩
  · cases hdigit : c.isDigit with
    | false => rfl
    | true =>
        simp only [Char.isDigit, Bool.and_eq_true, decide_eq_true_eq, ge_iff_le,
          UInt32.le_iff_toNat_le] at hdigit
        exact absurd hdigit hrange.2.2.1
  · cases hblank : isBlank c with
    | false => rfl
    | true =>
        have := range_of_isBlank hblank
        omega
  · intro hne
    cases hpart : isWordPart c with
    | false => rfl
    | true =>
        rcases ranges_of_isWordPart hpart with upper | lower | digit | rfl
        · exact absurd upper hrange.2.2.2.1
        · exact absurd lower hrange.2.2.2.2
        · exact absurd digit hrange.2.2.1
        · exact absurd rfl hne

/-- An operator character is punctuation of no other use. -/
theorem class_of_isOperatorChar {c : Char} (h : isOperatorChar c = true) :
    isWordStart c = false ∧ c.isDigit = false ∧ isBlank c = false ∧ isPunctuation c = true
      ∧ Kind.ofPunctuation c = .symbol := by
  simp only [isOperatorChar, Operator.alphabet, List.contains_eq_mem, List.mem_cons,
    List.not_mem_nil, or_false, decide_eq_true_eq] at h
  -- eleven characters, each of which is looked up in the classes
  rcases h with rfl | rfl | rfl | rfl | rfl | rfl | rfl | rfl | rfl | rfl | rfl <;> decide

/-- An operator character that starts no comment is a token of its own. -/
theorem split?_operator {c : Char} (h : isOperatorChar c = true) {rest : List Char}
    (plain : startsComment (c :: rest) = false) :
    split? (c :: rest) = some (⟨some .symbol, [c]⟩, rest) := by
  obtain ⟨word, digit, blank, punctuation, symbol⟩ := class_of_isOperatorChar h
  simp [split?, word, digit, blank, plain, punctuation, symbol]

/-! ## §3. Numbers. -/

/-- Digits, as long as neither a digit nor a point with a digit follows. -/
theorem splitNumber_whole {digits rest : List Char} (h : ∀ c ∈ digits, c.isDigit = true)
    (stop : ∀ c ∈ rest.head?, c.isDigit = false)
    (point : ∀ c more, rest = '.' :: c :: more → c.isDigit = false) :
    splitNumber (digits ++ rest) = (digits, rest) := by
  simp only [splitNumber, takeWhile_run h stop, dropWhile_run h stop]
  split
  · next c more =>
    rw [point c more rfl]
    rfl
  · rfl

/-- Digits, a point and digits, as long as no digit follows. -/
theorem splitNumber_point {digits fraction rest : List Char}
    (h : ∀ c ∈ digits, c.isDigit = true) (some_ : fraction ≠ [])
    (hfraction : ∀ c ∈ fraction, c.isDigit = true) (stop : ∀ c ∈ rest.head?, c.isDigit = false) :
    splitNumber (digits ++ '.' :: (fraction ++ rest)) = (digits ++ '.' :: fraction, rest) := by
  obtain ⟨d, more, rfl⟩ := List.exists_cons_of_ne_nil some_
  have hd : d.isDigit = true := hfraction d (by simp)
  have hpoint : ∀ c ∈ ('.' :: d :: (more ++ rest)).head?, Char.isDigit c = false := by
    simp only [List.head?_cons, Option.mem_some_iff, forall_eq']
    decide
  have htake : (d :: (more ++ rest)).takeWhile Char.isDigit = d :: more :=
    takeWhile_run hfraction stop
  have hdrop : (d :: (more ++ rest)).dropWhile Char.isDigit = rest := dropWhile_run hfraction stop
  simp only [splitNumber, List.cons_append, takeWhile_run h hpoint, dropWhile_run h hpoint, hd,
    if_true, htake, hdrop]

/-- A number is digits, perhaps with a point and more digits. -/
theorem splitNumber_shape (text : List Char) :
    ∃ digits, (∀ c ∈ digits, c.isDigit = true) ∧
      ((splitNumber text).1 = digits
        ∨ ∃ fraction, fraction ≠ [] ∧ (∀ c ∈ fraction, c.isDigit = true)
            ∧ (splitNumber text).1 = digits ++ '.' :: fraction) := by
  have hall : ∀ (l : List Char), ∀ c ∈ l.takeWhile Char.isDigit, c.isDigit = true :=
    fun l c hc => List.all_eq_true.1 List.all_takeWhile c hc
  refine ⟨text.takeWhile Char.isDigit, hall text, ?_⟩
  rw [splitNumber]
  split
  · next d rest _ =>
    split
    · next hd => exact .inr ⟨(d :: rest).takeWhile Char.isDigit, by simp [hd], hall _, rfl⟩
    · exact .inl rfl
  · exact .inl rfl

/-- A number stands by itself. -/
theorem splitNumber_self (text : List Char) :
    splitNumber (splitNumber text).1 = ((splitNumber text).1, []) := by
  have hstop : ∀ c ∈ ([] : List Char).head?, c.isDigit = false := by simp
  obtain ⟨digits, hdigits, h | ⟨fraction, some_, hfraction, h⟩⟩ := splitNumber_shape text
  · rw [h]
    simpa using splitNumber_whole hdigits hstop (by simp)
  · rw [h]
    simpa using splitNumber_point hdigits some_ hfraction hstop

/-- A blank keeps what follows out of a number. -/
theorem splitNumber_append {blank : Char} (h : isBlank blank = true) (text more : List Char) :
    splitNumber (text ++ blank :: more)
      = ((splitNumber text).1, (splitNumber text).2 ++ blank :: more) := by
  obtain ⟨_, digit, point, _⟩ := stops_of_isBlank h
  simp only [splitNumber, takeWhile_append_stop digit, dropWhile_append_stop digit]
  cases text.dropWhile Char.isDigit with
  | nil => simp [point]
  | cons c rest =>
      -- a point counts only with a digit behind it, and a blank is none
      by_cases hc : c = '.'
      · subst hc
        cases rest with
        | nil => simp [digit]
        | cons d rest =>
            cases hd : d.isDigit with
            | true =>
                simp [hd, takeWhile_append_stop digit, dropWhile_append_stop digit]
            | false => simp [hd]
      · simp [hc]

/-! ## §4. Tokens. -/

/-- A token is a word, a numeral, or a punctuation character that starts no comment. -/
theorem cases_of_split? {text left piece : List Char} {kind : Kind}
    (h : split? text = some (⟨some kind, piece⟩, left)) :
    ∃ c rest, text = c :: rest
      ∧ ((isWordStart c = true ∧ piece = c :: rest.takeWhile isWordPart
            ∧ left = rest.dropWhile isWordPart ∧ kind = Kind.ofWord (String.ofList piece))
        ∨ (isWordStart c = false ∧ c.isDigit = true ∧ splitNumber text = (piece, left)
            ∧ kind = .number)
        ∨ (isWordStart c = false ∧ isPunctuation c = true ∧ startsComment text = false
            ∧ piece = [c] ∧ left = rest ∧ kind = Kind.ofPunctuation c)) := by
  cases text with
  | nil => exact absurd h nofun
  | cons c rest =>
      refine ⟨c, rest, rfl, ?_⟩
      simp only [split?] at h
      split at h
      · next word =>
        simp only [Option.some.injEq, Prod.mk.injEq, Lexeme.mk.injEq] at h
        obtain ⟨⟨rfl, rfl⟩, rfl⟩ := h
        exact .inl ⟨word, rfl, rfl, rfl⟩
      · next word =>
        split at h
        · next digit =>
          simp only [Option.some.injEq, Prod.mk.injEq, Lexeme.mk.injEq] at h
          obtain ⟨⟨rfl, rfl⟩, rfl⟩ := h
          exact .inr (.inl ⟨by simpa using word, digit, rfl, rfl⟩)
        · split at h
          · simp at h
          · split at h
            · simp at h
            · next comment =>
              split at h
              · next punctuation =>
                simp only [Option.some.injEq, Prod.mk.injEq, Lexeme.mk.injEq] at h
                obtain ⟨⟨rfl, rfl⟩, rfl⟩ := h
                exact .inr (.inr ⟨by simpa using word, punctuation, by simpa using comment,
                  rfl, rfl, rfl⟩)
              · simp at h

/-- A gap is a run of blanks or the rest of a line. -/
theorem cases_of_gap {text left piece : List Char}
    (h : split? text = some (⟨none, piece⟩, left)) :
    ∃ c rest, text = c :: rest ∧ isWordStart c = false ∧ c.isDigit = false
      ∧ ((isBlank c = true ∧ piece = c :: rest.takeWhile isBlank ∧ left = rest.dropWhile isBlank)
        ∨ (isBlank c = false ∧ startsComment text = true
            ∧ piece = c :: rest.takeWhile (· ≠ '\n') ∧ left = rest.dropWhile (· ≠ '\n'))) := by
  cases text with
  | nil => exact absurd h nofun
  | cons c rest =>
      simp only [split?] at h
      split at h
      · simp at h
      · next word =>
        split at h
        · simp at h
        · next digit =>
          refine ⟨c, rest, rfl, by simpa using word, by simpa using digit, ?_⟩
          split at h
          · next blank =>
            cases h
            exact .inl ⟨blank, rfl, rfl⟩
          · next blank =>
            split at h
            · next comment =>
              cases h
              exact .inr ⟨by simpa using blank, comment, rfl, rfl⟩
            · split at h
              · simp at h
              · simp at h

/-- A word is an identifier or has a kind of its own, and is neither a number, a symbol
nor the end. -/
theorem ofWord_ne (word : String) :
    Kind.ofWord word ≠ .number ∧ Kind.ofWord word ≠ .symbol ∧ Kind.ofWord word ≠ .eof := by
  unfold Kind.ofWord
  split <;> decide

/-- Punctuation is neither a number, an identifier nor the end. -/
theorem ofPunctuation_ne (c : Char) :
    Kind.ofPunctuation c ≠ .number ∧ Kind.ofPunctuation c ≠ .identifier
      ∧ Kind.ofPunctuation c ≠ .eof := by
  unfold Kind.ofPunctuation
  split <;> decide

/-- The text of a token, alone, is that token. -/
theorem split?_self {text piece left : List Char} {kind : Kind}
    (h : split? text = some (⟨some kind, piece⟩, left)) :
    split? piece = some (⟨some kind, piece⟩, []) := by
  have happend := append_of_split? h
  obtain ⟨c, rest, rfl, ⟨word, rfl, -, rfl⟩ | ⟨word, digit, hnumber, rfl⟩
    | ⟨word, punctuation, -, rfl, -, rfl⟩⟩ := cases_of_split? h
  · simp [split?, word, List.takeWhile_idem, List.dropWhile_eq_nil_iff.2 fun _ =>
      List.mem_takeWhile_imp]
  · -- a number that is cut off starts with the digit that the text starts with
    have hself := splitNumber_self (c :: rest)
    obtain ⟨d, more, rfl⟩ := List.exists_cons_of_ne_nil (text_ne_nil_of_split? h)
    obtain ⟨rfl, -⟩ := List.cons.inj happend
    rw [hnumber] at hself
    simp [split?, word, digit, hself]
  · obtain ⟨hdigit, blank, -⟩ := class_of_isPunctuation punctuation
    simp [split?, word, hdigit, blank, punctuation, startsComment]

/-- Whether a comment starts is decided by the first two characters. -/
theorem startsComment_append {stop : Char} (h : stop ≠ '/') (c : Char) (text more : List Char) :
    startsComment (c :: (text ++ stop :: more)) = startsComment (c :: text) := by
  cases text with
  | nil => simp [startsComment, h]
  | cons d rest =>
      by_cases hc : c = '/'
      · by_cases hd : d = '/'
        · simp [startsComment, hc, hd]
        · simp [startsComment, hc, hd]
      · simp [startsComment, hc]

/-- A blank keeps what follows out of a token. -/
theorem split?_append {text left more : List Char} {kind : Kind} {piece : List Char} {blank : Char}
    (hblank : isBlank blank = true) (h : split? text = some (⟨some kind, piece⟩, left)) :
    split? (text ++ blank :: more) = some (⟨some kind, piece⟩, left ++ blank :: more) := by
  obtain ⟨part, _, _, slash⟩ := stops_of_isBlank hblank
  obtain ⟨c, rest, rfl, ⟨word, rfl, rfl, rfl⟩ | ⟨word, digit, hnumber, rfl⟩
    | ⟨word, punctuation, comment, rfl, rfl, rfl⟩⟩ := cases_of_split? h
  · simp [split?, word, takeWhile_append_stop part, dropWhile_append_stop part]
  · have hlonger := splitNumber_append hblank (c :: rest) more
    rw [hnumber, List.cons_append] at hlonger
    simp [split?, word, digit, hlonger]
  · obtain ⟨hdigit, hb, -⟩ := class_of_isPunctuation punctuation
    simp [split?, word, hdigit, hb, punctuation, startsComment_append slash, comment]

end Fixity
