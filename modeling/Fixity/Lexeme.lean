/-
  Fixity.Lexeme
  ────────────────────────────────
  **THE PIECE THAT A TEXT STARTS WITH.**

  A text starts with one of: a word; a number; a run of blanks; a comment, from
  two slashes to the end of the line; a bracket, brace, parenthesis, comma or
  semicolon; or any other ASCII punctuation character, which is a symbol.  Words
  and numbers are ASCII and as long as they can be.  A text that starts with
  anything else has no leading lexeme.

  Main results: `append_of_split?` (a lexeme and what is left make up the text) and
  `length_lt_of_split?` (something is always taken).
-/
import Fixity.Text.Blank
import Fixity.Token

namespace Fixity

open Text (isBlank)

/-! ## §1. Character classes. -/

/-- Whether a character can start a word. -/
def isWordStart (c : Char) : Bool := c.isAlpha || c == '_'

/-- Whether a character can stand inside a word. -/
def isWordPart (c : Char) : Bool := c.isAlphanum || c == '_'

/-- The ASCII punctuation characters, as closed ranges. -/
def punctuationRanges : List (Nat × Nat) :=
  [(0x21, 0x2f), (0x3a, 0x40), (0x5b, 0x60), (0x7b, 0x7e)]

/-- Whether a character is ASCII punctuation. -/
def isPunctuation (c : Char) : Bool :=
  punctuationRanges.any fun range => range.1 ≤ c.toNat && c.toNat ≤ range.2

/-- The kind of a token that is one punctuation character. -/
def Kind.ofPunctuation (c : Char) : Kind :=
  match c with
  | '[' => openBracket
  | ']' => closeBracket
  | '\x7b' => openBlock
  | '\x7d' => closeBlock
  | '(' => openParen
  | ')' => closeParen
  | ',' => comma
  | ';' => semicolon
  | _ => symbol

/-! ## §2. The leading lexeme. -/

/-- A piece of text: a token of some kind, or a gap between tokens. -/
structure Lexeme where
  /-- The kind of the token, none for a gap. -/
  kind? : Option Kind
  /-- The characters of the piece. -/
  text : List Char
deriving Repr, DecidableEq

/-- Takes the characters of a number: digits, and a point with digits if both are
there. -/
def splitNumber (text : List Char) : List Char × List Char :=
  let whole := text.takeWhile Char.isDigit
  match text.dropWhile Char.isDigit with
  | '.' :: d :: rest =>
    if d.isDigit then
      (whole ++ '.' :: (d :: rest).takeWhile Char.isDigit, (d :: rest).dropWhile Char.isDigit)
    else (whole, '.' :: d :: rest)
  | rest => (whole, rest)

/-- Whether a text starts a comment. -/
def startsComment : List Char → Bool
  | '/' :: '/' :: _ => true
  | _ => false

/-- The leading lexeme of a text and what is left after it. -/
def split? : List Char → Option (Lexeme × List Char)
  | [] => none
  | c :: rest =>
    if isWordStart c then
      let word := c :: rest.takeWhile isWordPart
      some (⟨some (Kind.ofWord (String.ofList word)), word⟩, rest.dropWhile isWordPart)
    else if c.isDigit then
      let (number, left) := splitNumber (c :: rest)
      some (⟨some .number, number⟩, left)
    else if isBlank c then
      some (⟨none, c :: rest.takeWhile isBlank⟩, rest.dropWhile isBlank)
    else if startsComment (c :: rest) then
      some (⟨none, c :: rest.takeWhile (· ≠ '\n')⟩, rest.dropWhile (· ≠ '\n'))
    else if isPunctuation c then some (⟨some (Kind.ofPunctuation c), [c]⟩, rest)
    else none

/-! ## §3. A lexeme and what is left make up the text. -/

theorem append_splitNumber (text : List Char) :
    (splitNumber text).1 ++ (splitNumber text).2 = text := by
  have whole := List.takeWhile_append_dropWhile (p := Char.isDigit) (l := text)
  unfold splitNumber
  split
  · next d rest h =>
    rw [h] at whole
    split
    · simp [whole]
    · exact whole
  · exact whole

theorem splitNumber_ne_nil {c : Char} (h : c.isDigit = true) (rest : List Char) :
    (splitNumber (c :: rest)).1 ≠ [] := by
  unfold splitNumber
  split
  · split <;> simp [h]
  · simp [h]

theorem append_of_split? {text left : List Char} {lexeme : Lexeme}
    (h : split? text = some (lexeme, left)) : lexeme.text ++ left = text := by
  cases text with
  | nil => exact absurd h nofun
  | cons c rest =>
    simp only [split?] at h
    split at h
    · cases h; simp
    · split at h
      · cases h; exact append_splitNumber (c :: rest)
      · split at h
        · cases h; simp
        · split at h
          · cases h; simp
          · split at h
            · cases h; rfl
            · exact absurd h nofun

/-- No lexeme is empty. -/
theorem text_ne_nil_of_split? {text left : List Char} {lexeme : Lexeme}
    (h : split? text = some (lexeme, left)) : lexeme.text ≠ [] := by
  cases text with
  | nil => exact absurd h nofun
  | cons c rest =>
    simp only [split?] at h
    split at h
    · cases h; simp
    · split at h
      · next digit => cases h; exact splitNumber_ne_nil digit rest
      · split at h
        · cases h; simp
        · split at h
          · cases h; simp
          · split at h
            · cases h; simp
            · exact absurd h nofun

/-- Something is always taken from a text. -/
theorem length_lt_of_split? {text left : List Char} {lexeme : Lexeme}
    (h : split? text = some (lexeme, left)) : left.length < text.length := by
  have taken := List.length_pos_iff.2 (text_ne_nil_of_split? h)
  rw [← append_of_split? h, List.length_append]
  omega

end Fixity
