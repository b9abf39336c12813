/-
  Fixity.Proofs.Printing.Delimiters
  ────────────────────────────────
  **WHERE A PRINTED WORD ENDS.**

  What is printed is made of words with delimiters between them: blanks, line ends,
  commas and three kinds of brackets.  A name, a numeral or an operator holds no
  delimiter, so it ends where the first one stands:

      word rest = word' rest'   →   word = word'  and  rest = rest'

  if both rests start with a delimiter.  A row of items that all start with one
  delimiter can be taken apart in the same way, item by item.

  Main results: `append_inj` (a word), `row_inj` (a row of items), and `solid_of_isName`,
  `solid_of_isInfix`, `solid_of_numeral` (names, operators and numerals are words).
-/
import Fixity.Proofs.Language.Lexicon
import Fixity.Proofs.Language.Vocabulary

namespace Fixity

namespace Printing

open Operator (isOperatorChar)

/-! ## §1. Words and what follows them. -/

/-- The characters that end a word. -/
def delimiters : List Char := [' ', '\n', ',', '(', ')', '[', ']', '\x7b', '\x7d']

/-- A word: some characters, and no delimiter among them. -/
structure Solid (word : List Char) : Prop where
  /-- There is a first character. -/
  nonempty : word ≠ []
  /-- No character is a delimiter. -/
  plain : ∀ c ∈ word, c ∉ delimiters

instance (word : List Char) : Decidable (Solid word) :=
  decidable_of_iff (word ≠ [] ∧ word.all (· ∉ delimiters) = true)
    ⟨fun h => ⟨h.1, by simpa using h.2⟩, fun h => ⟨h.1, by simpa using h.2⟩⟩

/-- What can follow a word: nothing, or a delimiter first. -/
def Breaks (rest : List Char) : Prop := ∀ c ∈ rest.head?, c ∈ delimiters

/-- What can follow a tree: no index of it. -/
def Stops (rest : List Char) : Prop := Breaks rest ∧ rest.head? ≠ some '['

variable {word other rest more : List Char}

theorem breaks_cons {c : Char} (h : c ∈ delimiters) : Breaks (c :: rest) := by
  intro d hd
  rwa [← Option.some.inj hd]

theorem stops_cons {c : Char} (h : c ∈ delimiters) (hne : c ≠ '[') : Stops (c :: rest) :=
  ⟨breaks_cons h, fun heq => hne (Option.some.inj heq)⟩

/-- Two words without a delimiter between them are one. -/
theorem Solid.append (h : Solid word) (h' : Solid other) : Solid (word ++ other) := by
  refine ⟨List.append_ne_nil_of_left_ne_nil h.nonempty _, fun c hmem => ?_⟩
  exact (List.mem_append.1 hmem).elim (h.plain c) (h'.plain c)

/-- The characters before the first delimiter are the word. -/
theorem takeWhile_solid (h : Solid word) (breaks : Breaks rest) :
    (word ++ rest).takeWhile (· ∉ delimiters) = word := by
  have hrest : rest.takeWhile (· ∉ delimiters) = [] := by
    cases rest with
    | nil => rfl
    | cons c rest => exact List.takeWhile_cons_of_neg (by simp [breaks c rfl])
  rw [List.takeWhile_append_of_pos (by simpa using h.plain), hrest, List.append_nil]

/-- **A word ends where the first delimiter stands.** -/
theorem append_inj (h : Solid word) (h' : Solid other) (breaks : Breaks rest)
    (breaks' : Breaks more) (heq : word ++ rest = other ++ more) : word = other ∧ rest = more := by
  have hword : word = other := by
    rw [← takeWhile_solid h breaks, heq, takeWhile_solid h' breaks']
  rw [hword] at heq
  exact ⟨hword, List.append_cancel_left heq⟩

/-- A word does not start with a delimiter. -/
theorem Solid.head?_ne {c : Char} (h : Solid word) (hc : c ∈ delimiters) :
    (word ++ rest).head? ≠ some c := by
  obtain ⟨first, tail, rfl⟩ := List.exists_cons_of_ne_nil h.nonempty
  intro hhead
  rw [← Option.some.inj hhead] at hc
  exact h.plain first List.mem_cons_self hc

/-! ## §2. Rows. -/

/-- A row ends like what follows it, or starts with the character that all items start with. -/
theorem follows_row {α : Type} (Follows : List Char → Prop) (body : α → List Char) {mark : Char}
    (next : ∀ s, Follows (mark :: s)) (follows : Follows rest) (items : List α) :
    Follows (items.flatMap (mark :: body ·) ++ rest) := by
  cases items with
  | nil => exact follows
  | cons item items => exact next _

/-- **A row of items is taken apart item by item**, if all items start with one character,
which does not stand after the row, and each can be told from what may follow it. -/
theorem row_inj {α : Type} (Follows : List Char → Prop) (body : α → List Char) {mark : Char}
    (next : ∀ s, Follows (mark :: s)) {items others : List α}
    (unique : ∀ a ∈ items, ∀ b ∈ others, ∀ s t, Follows s → Follows t →
      body a ++ s = body b ++ t → a = b ∧ s = t)
    (follows : Follows rest) (follows' : Follows more)
    (ends : rest.head? ≠ some mark) (ends' : more.head? ≠ some mark)
    (heq : items.flatMap (mark :: body ·) ++ rest = others.flatMap (mark :: body ·) ++ more) :
    items = others ∧ rest = more := by
  induction items generalizing others with
  | nil =>
      cases others with
      | nil => exact ⟨rfl, heq⟩
      | cons b others => exact absurd (congrArg List.head? heq) ends
  | cons a items ih =>
      cases others with
      | nil => exact absurd (congrArg List.head? heq).symm ends'
      | cons b others =>
          rw [List.flatMap_cons, List.flatMap_cons, List.append_assoc, List.append_assoc,
            List.cons_append, List.cons_append] at heq
          obtain ⟨rfl, htail⟩ := unique a List.mem_cons_self b List.mem_cons_self _ _
            (follows_row Follows body next follows items)
            (follows_row Follows body next follows' others) (List.cons.inj heq).2
          obtain ⟨rfl, hrest⟩ := ih (fun a ha b hb => unique a (List.mem_cons_of_mem _ ha) b
            (List.mem_cons_of_mem _ hb)) htail
          exact ⟨rfl, hrest⟩

/-! ## §3. Names, operators and numerals. -/

/-- Characters that are no delimiters make up a word. -/
theorem solid_of_all {accept : Char → Bool} (reject : delimiters.any accept = false)
    (nonempty : word ≠ []) (h : ∀ c ∈ word, accept c = true) : Solid word := by
  refine ⟨nonempty, fun c hmem hc => ?_⟩
  have haccept : delimiters.any accept = true := List.any_eq_true.2 ⟨c, hc, h c hmem⟩
  rw [reject] at haccept
  exact absurd haccept nofun

/-- Every character of a name can stand in a word. -/
theorem isWordPart_of_isName {name : String} (h : isName name = true) :
    ∀ c ∈ name.toList, isWordPart c = true := by
  unfold isName at h
  split at h
  · exact absurd h nofun
  · next c tail hletters =>
    simp only [Bool.and_eq_true, List.all_eq_true] at h
    rw [hletters]
    intro d hmem
    obtain rfl | hmem := List.mem_cons.1 hmem
    · obtain ⟨⟨hstart, -⟩, -⟩ := h
      simp only [isWordStart, Bool.or_eq_true] at hstart
      simp only [isWordPart, Char.isAlphanum, Bool.or_eq_true]
      exact hstart.imp .inl id
    · exact h.1.2 d hmem

/-- A name is a word. -/
theorem solid_of_isName {name : String} (h : isName name = true) : Solid name.toList := by
  refine solid_of_all (by decide) ?_ (isWordPart_of_isName h)
  intro hnil
  simp [isName, hnil] at h

/-- An operator is a word. -/
theorem solid_of_isInfix {spelling : String} (h : isInfix spelling = true) :
    Solid spelling.toList := by
  unfold isInfix at h
  split at h
  · next c hletters =>
    have reject : delimiters.any (fun d =>
        isPunctuation d && !isWordStart d && Kind.ofPunctuation d == .symbol) = false := by decide
    rw [hletters]
    refine solid_of_all reject nofun fun d hmem => ?_
    rw [List.mem_singleton.1 hmem]
    exact h
  · next c d hletters =>
    simp only [Bool.and_eq_true] at h
    have reject : delimiters.any isOperatorChar = false := by decide
    rw [hletters]
    exact solid_of_all reject nofun (by simp [h.1.1, h.1.2])
  · exact absurd h nofun

/-- An operator has a character that cannot stand in a word. -/
theorem exists_not_isWordPart {spelling : String} (h : isInfix spelling = true) :
    ∃ c ∈ spelling.toList, isWordPart c = false := by
  unfold isInfix at h
  split at h
  · next c hletters =>
    simp only [Bool.and_eq_true, Bool.not_eq_true', isWordStart, Bool.or_eq_false_iff] at h
    obtain ⟨⟨punctuation, alpha, underscore⟩, -⟩ := h
    have digit := (class_of_isPunctuation punctuation).1
    rw [hletters]
    exact ⟨c, List.mem_cons_self, by simp [isWordPart, Char.isAlphanum, alpha, digit, underscore]⟩
  · next c d hletters =>
    simp only [Bool.and_eq_true] at h
    have reject : Operator.alphabet.all (!isWordPart ·) = true := by decide
    have hc := List.all_eq_true.1 reject c (List.contains_iff_mem.1 h.1.1)
    rw [hletters]
    exact ⟨c, List.mem_cons_self, by simpa using hc⟩
  · cases h

/-- A word with an operator behind it is no name. -/
theorem not_isName_append (word : String) {spelling : String} (h : isInfix spelling = true) :
    isName (word ++ spelling) = false := by
  obtain ⟨c, hmem, hc⟩ := exists_not_isWordPart h
  rw [Bool.eq_false_iff]
  intro hname
  have hpart := isWordPart_of_isName hname c (by simp [hmem])
  rw [hc] at hpart
  exact absurd hpart nofun

/-- A numeral is a word. -/
theorem solid_of_numeral {word : String} (h : IsWord .number word) : Solid word.toList := by
  have reject : delimiters.any (fun d => d.isDigit || d == '.') = false := by decide
  have haccept {digits : List Char} (hdigits : Number.IsDigits digits) :
      ∀ d ∈ digits, (d.isDigit || d == '.') = true := fun d hmem => by
    rw [hdigits d hmem, Bool.true_or]
  obtain ⟨digits, nonempty, hdigits, hletters | ⟨fraction, hfraction, hletters⟩⟩ :=
    shape_of_isWord h
  · rw [hletters]
    exact solid_of_all reject nonempty (haccept hdigits)
  · rw [hletters]
    refine solid_of_all reject (List.append_ne_nil_of_left_ne_nil nonempty _) fun d hmem => ?_
    obtain hmem | hmem := List.mem_append.1 hmem
    · exact haccept hdigits d hmem
    · obtain rfl | hmem := List.mem_cons.1 hmem
      · rfl
      · exact haccept hfraction d hmem

/-- A numeral starts with a digit. -/
theorem digit_of_numeral {word : String} (h : IsWord .number word) :
    word.toList.head?.any Char.isDigit = true := by
  obtain ⟨digits, nonempty, hdigits, hletters⟩ := shape_of_isWord h
  obtain ⟨c, tail, rfl⟩ := List.exists_cons_of_ne_nil nonempty
  have hhead : word.toList.head? = some c := by
    obtain hletters | ⟨fraction, -, hletters⟩ := hletters
    all_goals
      rw [hletters]
      rfl
  rw [hhead]
  exact hdigits c List.mem_cons_self

/-- A name does not start with one. -/
theorem not_digit_of_isName {name : String} (h : isName name = true) :
    name.toList.head?.any Char.isDigit = false := by
  unfold isName at h
  split at h
  · exact absurd h nofun
  · next c tail hletters =>
    simp only [Bool.and_eq_true] at h
    rw [hletters]
    show c.isDigit = false
    rw [Bool.eq_false_iff]
    intro digit
    rw [Number.isWordStart_of_isDigit digit] at h
    exact absurd h.1.1 nofun

end Printing
end Fixity
