/-
  Fixity.Text.Bytes
  ────────────────────────────────
  **TEXT IS MEASURED IN BYTES OF UTF-8.**

  Program text is handled as a list of characters; every place in it is
  named by the number of bytes before that place.  This module holds the
  measure and the cut that goes with it:

    * `byteLength`       — bytes that a text takes;
    * `dropBytes n`      — what is left of a text after its first `n` bytes.

  Main results: `byteLength_append` (the measure is additive) and
  `dropBytes_byteLength_append` (cutting a text at the end of its first part
  leaves the second part).
-/

namespace Fixity.Text

/-- The number of bytes that a text takes in UTF-8. -/
def byteLength : List Char → Nat
  | [] => 0
  | c :: rest => c.utf8Size + byteLength rest

/-- What is left of a text after its first `n` bytes.  A cut inside a character
removes that character too. -/
def dropBytes : Nat → List Char → List Char
  | _, [] => []
  | 0, text => text
  | n + 1, c :: rest => dropBytes (n + 1 - c.utf8Size) rest

/-! ## §1. The measure is additive. -/

@[simp] theorem byteLength_nil : byteLength [] = 0 := rfl

@[simp] theorem byteLength_cons (c : Char) (rest : List Char) :
    byteLength (c :: rest) = c.utf8Size + byteLength rest := rfl

@[simp] theorem byteLength_append (first second : List Char) :
    byteLength (first ++ second) = byteLength first + byteLength second := by
  induction first with
  | nil => simp
  | cons c rest ih => simp [ih, Nat.add_assoc]

/-- Every character takes a byte, so a text has at most as many characters as bytes. -/
theorem length_le_byteLength (text : List Char) : text.length ≤ byteLength text := by
  induction text with
  | nil => exact Nat.le_refl 0
  | cons c rest ih =>
    have hc := c.utf8Size_pos
    simp only [List.length_cons, byteLength_cons]
    omega

/-! ## §2. Cutting at the end of the first part. -/

@[simp] theorem dropBytes_zero (text : List Char) : dropBytes 0 text = text := by
  cases text <;> rfl

theorem dropBytes_byteLength_append (first second : List Char) :
    dropBytes (byteLength first) (first ++ second) = second := by
  induction first with
  | nil => simp
  | cons c rest ih =>
    obtain ⟨n, hn⟩ : ∃ n, byteLength (c :: rest) = n + 1 :=
      ⟨byteLength (c :: rest) - 1, by have := c.utf8Size_pos; simp only [byteLength_cons]; omega⟩
    have hcut : n + 1 - c.utf8Size = byteLength rest := by
      simp only [byteLength_cons] at hn; omega
    rw [hn, List.cons_append, dropBytes, hcut, ih]

end Fixity.Text
