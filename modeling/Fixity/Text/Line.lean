/-
  Fixity.Text.Line
  ────────────────────────────────
  **WHICH LINE A BYTE STANDS ON.**

  A text is cut after each newline; the newline belongs to the line it ends,
  and a text that ends in a newline has no empty line after it.  `lineAt` finds
  the line that holds a byte; a place at or past the end of the text belongs to
  its last line, at the end of what can be shown of it.

  Main results: `lines_flatten` (cutting loses nothing) and `lines_ne_nil`.
-/
import Fixity.Text.Bytes

namespace Fixity.Text

/-- The lines of a text, each with the newline that ends it. -/
def lines : List Char → List (List Char)
  | [] => []
  | c :: rest =>
    if c = '\n' then [c] :: lines rest
    else match lines rest with
      | [] => [[c]]
      | line :: others => (c :: line) :: others

/-- A place in a text as a reader counts it: the number of its line, from one, the
text of that line, and the bytes before the place on that line. -/
structure LinePlace where
  /-- The number of the line, from one. -/
  number : Nat
  /-- The whole line, with its newline. -/
  text : List Char
  /-- Bytes before the place on the line. -/
  offset : Nat
deriving Repr, DecidableEq

/-- Walks from line to line until one holds the byte `offset`, counted from the
start of `line`. -/
def locate (number : Nat) (line : List Char) : List (List Char) → Nat → LinePlace
  | [], offset =>
    if offset < byteLength line then ⟨number, line, offset⟩
    else ⟨number, line, byteLength (line.takeWhile (· ≠ '\n'))⟩
  | next :: others, offset =>
    if offset < byteLength line then ⟨number, line, offset⟩
    else locate (number + 1) next others (offset - byteLength line)

/-- The line that holds byte `offset` of a text; the last line past its end. -/
def lineAt (text : List Char) (offset : Nat) : LinePlace :=
  match lines text with
  | [] => ⟨1, [], 0⟩
  | line :: others => locate 1 line others offset

/-! ## §1. Cutting into lines loses nothing. -/

theorem lines_flatten (text : List Char) : (lines text).flatten = text := by
  induction text with
  | nil => rfl
  | cons c rest ih =>
    unfold lines
    split
    · simp [ih]
    · split
      · next h => simp [h] at ih; simp [← ih]
      · next h => simp [h] at ih; simp [← ih]

/-- No line is empty. -/
theorem lines_ne_nil (text : List Char) : ∀ line ∈ lines text, line ≠ [] := by
  induction text with
  | nil => simp [lines]
  | cons c rest ih =>
    unfold lines
    split
    · simpa using ih
    · split
      · simp
      · next h => rw [h] at ih; simp_all

end Fixity.Text
