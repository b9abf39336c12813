/-
  Fixity.Text.Blank
  ────────────────────────────────
  **BLANK CHARACTERS.**

  A character is blank when it has the Unicode property White_Space: twenty
  five code points, in the order of the standard.  Blanks separate tokens and
  are removed at the ends of a command or of a displayed line.

  Main results: `isBlank_of_isWhitespace` (the ASCII blanks are among them),
  `trimEnd_append_blank` (a blank at the end is removed) and `trimEnd_append_cons` (nothing
  before a character that is none).
-/

namespace Fixity.Text

/-- The code points with the property White_Space, as closed ranges in ascending
order. -/
def blankRanges : List (Nat × Nat) :=
  [(0x9, 0xd), (0x20, 0x20), (0x85, 0x85), (0xa0, 0xa0), (0x1680, 0x1680),
   (0x2000, 0x200a), (0x2028, 0x2029), (0x202f, 0x202f), (0x205f, 0x205f),
   (0x3000, 0x3000)]

/-- Whether a character has the property White_Space. -/
def isBlank (c : Char) : Bool :=
  blankRanges.any fun range => range.1 ≤ c.toNat && c.toNat ≤ range.2

/-- A text without the blanks at its end. -/
def trimEnd (text : List Char) : List Char :=
  (text.reverse.dropWhile isBlank).reverse

/-- A text without the blanks at either end. -/
def trim (text : List Char) : List Char :=
  trimEnd (text.dropWhile isBlank)

/-! ## §1. Which characters are blank. -/

/-- The blanks of ASCII are blank. -/
theorem isBlank_of_isWhitespace {c : Char} (h : c.isWhitespace = true) : isBlank c = true := by
  simp only [Char.isWhitespace, Bool.or_eq_true, decide_eq_true_eq] at h
  rcases h with ((rfl | rfl) | rfl) | rfl <;> decide

/-! ## §2. Trimming. -/

theorem trimEnd_append_blank (text : List Char) {c : Char} (h : isBlank c = true) :
    trimEnd (text ++ [c]) = trimEnd text := by
  simp [trimEnd, h]

/-- A character that is no blank stays, and so does all that stands before it. -/
theorem trimEnd_append_cons (text : List Char) {c : Char} (h : isBlank c = false)
    (rest : List Char) : trimEnd (text ++ c :: rest) = text ++ c :: trimEnd rest := by
  unfold trimEnd
  rw [List.reverse_append, List.reverse_cons, List.append_assoc, List.dropWhile_append]
  split
  · next hempty =>
    rw [List.isEmpty_iff.1 hempty, List.singleton_append, List.dropWhile_cons_of_neg (by simp [h])]
    simp
  · simp

theorem mem_of_mem_trimEnd {text : List Char} {c : Char} (h : c ∈ trimEnd text) : c ∈ text := by
  unfold trimEnd at h
  have hmem := (List.dropWhile_suffix isBlank).subset (List.mem_reverse.1 h)
  exact List.mem_reverse.1 hmem

end Fixity.Text
