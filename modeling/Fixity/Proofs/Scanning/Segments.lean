/-
  Fixity.Proofs.Scanning.Segments
  ────────────────────────────────
  **WHICH TEXTS ARE TOKENS AND WHICH ARE GAPS.**

  A token is a word that no further character of a word follows, a numeral that no
  longer one starts with, or a punctuation character.  A gap is made of blanks and of
  comments, which run from two slashes up to the end of the line.  This is said here of
  texts, without the steps of a scanner; a scanner takes such a piece at every step, and
  takes every such piece that does not start a comment.

  Main results: `stands_of_split?` with `split?_of_stands` (tokens), and `Gap.of_split?`
  with `Gap.tokens?` (gaps).
-/
import Fixity.Scanner
import Fixity.Proofs.Number.ReadBack
import Fixity.Proofs.Scanning.Cut
import Fixity.Proofs.Scanning.Pieces
import Fixity.Proofs.Scanning.Seam

namespace Fixity

open Text (byteLength isBlank)

/-! ## §1. Tokens. -/

/-- Digits, or digits on both sides of a point. -/
def IsNumeral (text : List Char) : Prop :=
  ∃ digits, digits ≠ [] ∧ (∀ c ∈ digits, c.isDigit = true) ∧
    (text = digits
      ∨ ∃ fraction, fraction ≠ [] ∧ (∀ c ∈ fraction, c.isDigit = true)
          ∧ text = digits ++ '.' :: fraction)

/-- Whether a text can be a token of a kind where another text follows it.  The kind is
decided by the text alone. -/
inductive Stands : Kind → List Char → List Char → Prop
  /-- A word, which ends where the characters of words end. -/
  | word {c : Char} {rest after : List Char} :
      isWordStart c = true → (∀ d ∈ rest, isWordPart d = true) →
      (∀ d ∈ after.head?, isWordPart d = false) →
      Stands (Kind.ofWord (String.ofList (c :: rest))) (c :: rest) after
  /-- A numeral, the longest that stands there. -/
  | numeral {text after : List Char} :
      IsNumeral text →
      (∀ candidate, IsNumeral candidate → candidate <+: text ++ after →
        candidate.length ≤ text.length) →
      Stands .number text after
  /-- A punctuation character that starts no word. -/
  | mark {c : Char} {after : List Char} :
      isPunctuation c = true → c ≠ '_' → Stands (Kind.ofPunctuation c) [c] after

/-- A numeral starts with a digit. -/
theorem IsNumeral.head {text : List Char} (h : IsNumeral text) :
    ∃ c rest, text = c :: rest ∧ c.isDigit = true := by
  obtain ⟨digits, hne, hdigits, htext⟩ := h
  obtain ⟨c, rest, rfl⟩ := List.exists_cons_of_ne_nil hne
  have hc : c.isDigit = true := hdigits c (by simp)
  rcases htext with rfl | ⟨fraction, -, -, rfl⟩
  · exact ⟨c, rest, rfl, hc⟩
  · exact ⟨c, rest ++ '.' :: fraction, rfl, hc⟩

/-- No character of a numeral is a slash. -/
theorem IsNumeral.ne_slash {text : List Char} (h : IsNumeral text) : ∀ c ∈ text, c ≠ '/' := by
  have hdigit : ∀ {c : Char}, c.isDigit = true → c ≠ '/' := by
    rintro c hc rfl
    exact absurd hc (by decide)
  obtain ⟨digits, -, hdigits, rfl | ⟨fraction, -, hfraction, rfl⟩⟩ := h
  · exact fun c hc => hdigit (hdigits c hc)
  · intro c hc
    rcases List.mem_append.1 hc with hc | hc
    · exact hdigit (hdigits c hc)
    · rcases List.mem_cons.1 hc with rfl | hc
      · decide
      · exact hdigit (hfraction c hc)

/-- Only a slash starts a comment. -/
theorem startsComment_of_ne {c : Char} (h : c ≠ '/') (rest : List Char) :
    startsComment (c :: rest) = false := by
  unfold startsComment
  split
  · next heq => exact absurd (List.cons.inj heq).1 h
  · rfl

namespace Stands

variable {kind : Kind} {text after : List Char}

theorem ne_nil (h : Stands kind text after) : text ≠ [] := by
  cases h with
  | word => simp
  | numeral numeral =>
      obtain ⟨c, rest, rfl, -⟩ := numeral.head
      simp
  | mark => simp

/-- A token of more than one character has no slash in it. -/
theorem mark_or_ne_slash (h : Stands kind text after) : (∃ c, text = [c]) ∨ ∀ c ∈ text, c ≠ '/' := by
  cases h with
  | word hstart hrest =>
      refine .inr fun c hc => ?_
      rintro rfl
      rcases List.mem_cons.1 hc with rfl | hc
      · exact absurd hstart (by decide)
      · exact absurd (hrest _ hc) (by decide)
  | numeral numeral => exact .inr numeral.ne_slash
  | mark => exact .inl ⟨_, rfl⟩

/-- If no comment starts with a token, none starts inside it. -/
theorem plain (h : Stands kind text after) (hstart : startsComment (text ++ after) = false)
    (first second : List Char) (htext : text = first ++ second) (hne : second ≠ []) :
    startsComment (second ++ after) = false := by
  rcases h.mark_or_ne_slash with ⟨c, hc⟩ | hslash
  · have hsecond : second = text := by
      subst htext
      rcases List.append_eq_singleton_iff.1 hc with ⟨rfl, -⟩ | ⟨-, hnil⟩
      · rfl
      · exact absurd hnil hne
    rwa [hsecond]
  · obtain ⟨d, more, rfl⟩ := List.exists_cons_of_ne_nil hne
    exact startsComment_of_ne (hslash d (by simp [htext])) _

end Stands

/-! ## §2. A scanner takes the longest numeral. -/

/-- A number that is taken is a numeral. -/
theorem isNumeral_splitNumber {c : Char} (hc : c.isDigit = true) (rest : List Char) :
    IsNumeral (splitNumber (c :: rest)).1 := by
  have happend := append_splitNumber (c :: rest)
  obtain ⟨digits, hdigits, h | ⟨fraction, hne, hfraction, h⟩⟩ := splitNumber_shape (c :: rest)
  · exact ⟨digits, h ▸ splitNumber_ne_nil hc rest, hdigits, .inl h⟩
  · refine ⟨digits, ?_, hdigits, .inr ⟨fraction, hne, hfraction, h⟩⟩
    -- without a digit in front the number would start with the point
    rintro rfl
    rw [h] at happend
    have hpoint : '.' = c := (List.cons.inj happend).1
    subst hpoint
    exact absurd hc (by decide)

/-- A numeral that a text starts with is no longer than the number that is taken. -/
theorem length_le_splitNumber {candidate : List Char} (h : IsNumeral candidate)
    (rest : List Char) :
    candidate.length ≤ (splitNumber (candidate ++ rest)).1.length := by
  obtain ⟨digits, -, hdigits, rfl | ⟨fraction, hne, hfraction, rfl⟩⟩ := h
  · simp only [splitNumber, List.takeWhile_append_of_pos hdigits]
    split
    · split
      · simp only [List.length_append]
        omega
      · simp
    · simp
  · obtain ⟨d, more, rfl⟩ := List.exists_cons_of_ne_nil hne
    have hd : d.isDigit = true := hfraction d (by simp)
    have hmore : ∀ c ∈ more, c.isDigit = true := fun c hc => hfraction c (by simp [hc])
    have hpoint : Char.isDigit '.' = false := by decide
    simp [splitNumber, List.takeWhile_append_of_pos hdigits, List.dropWhile_append_of_pos hdigits,
      hpoint, hd, List.takeWhile_append_of_pos hmore]

/-- The longest numeral of a text is the number that is taken. -/
theorem splitNumber_of_longest {text after : List Char} (h : IsNumeral text)
    (longest : ∀ candidate, IsNumeral candidate → candidate <+: text ++ after →
      candidate.length ≤ text.length) : splitNumber (text ++ after) = (text, after) := by
  obtain ⟨c, rest, hcons, hc⟩ := h.head
  have happend := append_splitNumber (text ++ after)
  have htaken : IsNumeral (splitNumber (text ++ after)).1 := by
    rw [hcons]
    exact isNumeral_splitNumber hc _
  have hle := longest _ htaken ⟨_, happend⟩
  have hge := length_le_splitNumber h after
  obtain ⟨hfirst, hsecond⟩ := List.append_inj happend (Nat.le_antisymm hle hge)
  exact Prod.ext hfirst hsecond

/-! ## §3. A scanner takes tokens. -/

/-- What a scanner takes as a token can be one. -/
theorem stands_of_split? {text piece left : List Char} {kind : Kind}
    (h : split? text = some (⟨some kind, piece⟩, left)) :
    Stands kind piece left ∧ startsComment (piece ++ left) = false := by
  have happend : piece ++ left = text := append_of_split? h
  obtain ⟨c, rest, rfl, ⟨hword, rfl, rfl, rfl⟩ | ⟨-, hdigit, hnumber, rfl⟩
    | ⟨hword, hmark, plain, rfl, rfl, rfl⟩⟩ := cases_of_split? h
  · refine ⟨.word hword (fun d hd => List.all_eq_true.1 List.all_takeWhile d hd)
      (head?_dropWhile rest), ?_⟩
    rw [happend]
    unfold startsComment
    split
    · exact absurd hword (by simp_all [isWordStart])
    · rfl
  · have hpiece : (splitNumber (c :: rest)).1 = piece := by rw [hnumber]
    have hnumeral : IsNumeral piece := hpiece ▸ isNumeral_splitNumber hdigit rest
    refine ⟨.numeral hnumeral ?_, ?_⟩
    · intro candidate hcandidate hprefix
      obtain ⟨more, hmore⟩ := hprefix
      have hle := length_le_splitNumber hcandidate more
      rw [hmore, happend, hpiece] at hle
      exact hle
    · rw [happend]
      unfold startsComment
      split
      · exact absurd hdigit (by simp_all)
      · rfl
  · refine ⟨.mark hmark ?_, plain⟩
    rintro rfl
    exact absurd hword (by decide)

/-- What can be a token and starts no comment is taken as one. -/
theorem split?_of_stands {text after : List Char} {kind : Kind} (h : Stands kind text after)
    (plain : startsComment (text ++ after) = false) :
    split? (text ++ after) = some (⟨some kind, text⟩, after) := by
  cases h with
  | word hstart hrest hstop =>
      simp [split?, hstart, takeWhile_run hrest hstop, dropWhile_run hrest hstop]
  | numeral numeral longest =>
      have htaken := splitNumber_of_longest numeral longest
      obtain ⟨c, rest, rfl, hc⟩ := numeral.head
      rw [List.cons_append] at htaken ⊢
      simp [split?, Number.isWordStart_of_isDigit hc, hc, htaken]
  | mark hmark hne =>
      obtain ⟨digit, blank, part⟩ := class_of_isPunctuation hmark
      have word := (class_of_not_isWordPart (part hne)).1
      simp only [List.cons_append, List.nil_append] at plain ⊢
      simp [split?, word, digit, blank, plain, hmark]

/-! ## §4. Gaps. -/

/-- A text that is one comment where another text follows it: two slashes and the rest of
the line. -/
def IsComment (text after : List Char) : Prop :=
  ∃ body, text = '/' :: '/' :: body ∧ '\n' ∉ body ∧ ∀ c ∈ after.head?, c = '\n'

/-- A text that is no more than blanks and comments where another text follows it. -/
inductive Gap : List Char → List Char → Prop
  /-- Nothing at all. -/
  | nil {after : List Char} : Gap [] after
  /-- A blank. -/
  | blank {c : Char} {gap after : List Char} : isBlank c = true → Gap gap after → Gap (c :: gap) after
  /-- A comment. -/
  | comment {text gap after : List Char} :
      IsComment text (gap ++ after) → Gap gap after → Gap (text ++ gap) after

theorem IsComment.starts {text after : List Char} (h : IsComment text after) :
    startsComment (text ++ after) = true := by
  obtain ⟨body, rfl, -, -⟩ := h
  rfl

/-- Two slashes start a comment, which is the rest of their line. -/
theorem exists_comment {text : List Char} (h : startsComment text = true) :
    ∃ comment after, text = comment ++ after ∧ IsComment comment after := by
  unfold startsComment at h
  split at h
  · next body =>
    refine ⟨'/' :: '/' :: body.takeWhile (· ≠ '\n'), body.dropWhile (· ≠ '\n'), ?_, _, rfl, ?_, ?_⟩
    · rw [List.cons_append, List.cons_append, List.takeWhile_append_dropWhile]
    · intro hmem
      simpa using List.mem_takeWhile_imp hmem
    · intro c hc
      simpa using head?_dropWhile _ c hc
  · cases h

/-- A comment is taken as one lexeme. -/
theorem IsComment.taken {text after : List Char} (h : IsComment text after) :
    split? (text ++ after) = some (⟨none, text⟩, after) := by
  obtain ⟨body, rfl, hbody, hafter⟩ := h
  have hin : ∀ c ∈ '/' :: body, decide (c ≠ '\n') = true := by
    intro c hc
    rw [decide_eq_true_eq]
    rintro rfl
    exact hbody (by simpa using hc)
  have hstop : ∀ c ∈ after.head?, decide (c ≠ '\n') = false := by
    intro c hc
    simp [hafter c hc]
  have htake := takeWhile_run hin hstop
  have hdrop := dropWhile_run hin hstop
  have hword : isWordStart '/' = false := by decide
  have hdigit : Char.isDigit '/' = false := by decide
  have hblank : isBlank '/' = false := by decide
  have hstarts : startsComment ('/' :: ('/' :: body ++ after)) = true := rfl
  show split? ('/' :: ('/' :: body ++ after)) = _
  simp only [split?, hword, hdigit, hblank, hstarts, htake, hdrop, Bool.false_eq_true, if_false,
    if_true]

/-- A piece that is no token is blank, or it is a comment. -/
theorem gap_shape {text piece left : List Char} (h : split? text = some (⟨none, piece⟩, left)) :
    (∀ c ∈ piece, isBlank c = true) ∨ IsComment piece left := by
  obtain ⟨c, rest, rfl, -, -, ⟨blank, rfl, -⟩ | ⟨-, starts, -, -⟩⟩ := cases_of_gap h
  · refine .inl fun d hd => ?_
    rcases List.mem_cons.1 hd with rfl | hd
    · exact blank
    · exact List.mem_takeWhile_imp hd
  · obtain ⟨comment, after, htext, hcomment⟩ := exists_comment starts
    have htaken := hcomment.taken
    rw [← htext, h] at htaken
    cases htaken
    exact .inr hcomment

namespace Gap

/-- Two gaps in a row are a gap. -/
theorem append {first second after : List Char} (h : Gap first (second ++ after))
    (h' : Gap second after) : Gap (first ++ second) after := by
  generalize hrest : second ++ after = rest at h
  induction h with
  | nil => exact h'
  | blank hc _ ih => exact .blank hc (ih hrest)
  | @comment text gap rest hcomment _ ih =>
      subst hrest
      rw [List.append_assoc]
      exact .comment (by rwa [List.append_assoc]) (ih rfl)

/-- Blanks in a row are a gap. -/
theorem of_blank {gap : List Char} (h : ∀ c ∈ gap, isBlank c = true) (after : List Char) :
    Gap gap after := by
  induction gap with
  | nil => exact .nil
  | cons c rest ih => exact .blank (h c (by simp)) (ih fun d hd => h d (by simp [hd]))

/-- What a scanner passes over is a gap. -/
theorem of_split? {text piece left : List Char} (h : split? text = some (⟨none, piece⟩, left)) :
    Gap piece left := by
  rcases gap_shape h with blank | comment
  · exact of_blank blank left
  · have hgap : Gap (piece ++ []) left := .comment comment .nil
    rwa [List.append_nil] at hgap

/-- A gap is passed over. -/
theorem tokens? {gap after : List Char} (h : Gap gap after) (file : String) (offset : Nat) :
    (Scanner.mk file offset (gap ++ after)).tokens?
      = (Scanner.mk file (offset + byteLength gap) after).tokens? := by
  induction h generalizing offset with
  | nil => rfl
  | @blank c gap after hc _ ih =>
      have hpass : (Scanner.mk file offset ([c] ++ (gap ++ after))).tokens? = _ :=
        Scanner.tokens?_blank_append (by simpa using hc) (gap ++ after)
      rw [List.cons_append, ← List.singleton_append, hpass, ih]
      simp [Nat.add_assoc]
  | @comment text gap after hcomment _ ih =>
      rw [List.append_assoc, Scanner.tokens?_gap hcomment.taken]
      show (Scanner.mk file (offset + byteLength text) (gap ++ after)).tokens? = _
      rw [ih, Text.byteLength_append, Nat.add_assoc]

end Gap
end Fixity
