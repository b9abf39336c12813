/-
  Fixity.Cursor
  ────────────────────────────────
  **A PLACE IN A LIST OF TOKENS.**

  A cursor holds the tokens from the current one on.  It moves forward one token
  at a time and stays on the last one.  A list with no tokens at all reads as the
  end of an unnamed text.

  The cursor sees one token and the character that follows it directly.  That is
  enough to read an operator of two characters: a symbol whose first character is
  of the operator alphabet, followed directly by another one.

  Main results: `tokens_advance_suffix` (moving only drops tokens from the front)
  and `advance_of_isLast` (the last token is never left).
-/
import Fixity.Number.Literal
import Fixity.Operator
import Fixity.Position
import Fixity.Token

namespace Fixity

/-- A place in the tokens of a named text. -/
structure Cursor where
  /-- The name of the file. -/
  file : String
  /-- The tokens from the current one on. -/
  tokens : List Token
deriving Repr, DecidableEq

/-- An operator as it stands in the tokens. -/
structure OperatorReading where
  /-- Its one or two characters. -/
  spelling : String
  /-- The number of tokens that it takes. -/
  width : Nat
deriving Repr, DecidableEq

namespace Cursor

/-! ## §1. The current token. -/

/-- The current token. -/
def current? (cursor : Cursor) : Option Token := cursor.tokens.head?

/-- The kind of the current token. -/
def kind (cursor : Cursor) : Kind := (cursor.current?.map Token.kind).getD .eof

/-- The text of the current token. -/
def text (cursor : Cursor) : String := (cursor.current?.map Token.text).getD Token.eofText

/-- The current token, if it is of the given kind. -/
def currentOf? (cursor : Cursor) (kind : Kind) : Option Token :=
  cursor.current?.filter (·.kind == kind)

/-- The value of the current token, if it is a number. -/
def number? (cursor : Cursor) : Option Number :=
  (cursor.currentOf? .number).bind fun token => Number.ofText? token.text

/-- The text of the current token, if it is an identifier. -/
def identifier? (cursor : Cursor) : Option String :=
  (cursor.currentOf? .identifier).map Token.text

/-- The character directly after the current token. -/
def trailing? (cursor : Cursor) : Option Char := cursor.current?.bind Token.trailing

/-- The start of the current token. -/
def position (cursor : Cursor) : Position :=
  match cursor.current? with
  | some token => ⟨token.start, cursor.file⟩
  | none => Position.nowhere

/-! ## §2. Moving. -/

/-- Moves to the next token; stays on the last one. -/
def advance (cursor : Cursor) : Cursor :=
  match cursor.tokens with
  | _ :: next :: rest => { cursor with tokens := next :: rest }
  | _ => cursor

/-- Moves over several tokens. -/
def advanceBy : Nat → Cursor → Cursor
  | 0, cursor => cursor
  | n + 1, cursor => advanceBy n cursor.advance

/-! ## §3. Operators. -/

/-- Whether the current token is one symbol character, and this one. -/
def isSymbol (cursor : Cursor) (c : Char) : Bool :=
  cursor.kind == .symbol && cursor.text.toList == [c]

/-- Whether the current token is directly followed by an operator character that
goes with it: both characters are of the operator alphabet. -/
def partner? (cursor : Cursor) (first : Char) : Option Char :=
  cursor.trailing?.filter fun next =>
    Operator.isOperatorChar first && Operator.isOperatorChar next

/-- The operator that starts at the current token. -/
def operator? (cursor : Cursor) : Option OperatorReading :=
  (cursor.currentOf? .symbol).bind fun token =>
    token.text.toList.head?.map fun first =>
      match cursor.partner? first with
      | some next => ⟨String.ofList [first, next], 2⟩
      | none => ⟨String.singleton first, 1⟩

/-! ## §4. Moving only drops tokens. -/

theorem tokens_advance_suffix (cursor : Cursor) : cursor.advance.tokens <:+ cursor.tokens := by
  unfold advance
  split
  · next h => rw [h]; exact List.suffix_cons _ _
  · exact List.suffix_refl _

theorem advance_of_isLast {cursor : Cursor} (h : cursor.tokens.length ≤ 1) :
    cursor.advance = cursor := by
  unfold advance
  split
  · next h' => rw [h'] at h; simp at h
  · rfl

@[simp] theorem file_advance (cursor : Cursor) : cursor.advance.file = cursor.file := by
  unfold advance
  split <;> rfl

end Cursor
end Fixity
