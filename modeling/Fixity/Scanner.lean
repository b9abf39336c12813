/-
  Fixity.Scanner
  ────────────────────────────────
  **CUTTING A TEXT INTO TOKENS.**

  A scanner stands at a byte of a named text with the rest of the text before it.
  It takes leading lexemes one after the other; gaps are dropped, tokens are kept
  with their places, and a final token of no width marks the end.  A text that
  has no leading lexeme is an error at its first character.

  Main results: `tokens?_eq_append` (the last token marks the end of the text) and
  `tokens?_ne_nil` (so there is always one).
-/
import Fixity.Fault
import Fixity.Lexeme
import Fixity.Text.Bytes

namespace Fixity

open Text (byteLength dropBytes)

/-- A place in a text that is being cut. -/
structure Scanner where
  /-- The name of the file. -/
  file : String
  /-- Bytes before the place. -/
  offset : Nat
  /-- The text from the place on. -/
  rest : List Char
deriving Repr, DecidableEq

namespace Scanner

/-! ## §1. Moving through a text. -/

/-- A scanner at the start of a text. -/
def start (file source : String) : Scanner := ⟨file, 0, source.toList⟩

/-- A scanner `count` bytes further on. -/
def advance (scanner : Scanner) (count : Nat) : Scanner :=
  { scanner with offset := scanner.offset + count, rest := dropBytes count scanner.rest }

/-- Whether nothing is left. -/
def atEnd (scanner : Scanner) : Bool := scanner.rest.isEmpty

/-- The next character; a text that has none shows a null character. -/
def head (scanner : Scanner) : Char := scanner.rest.headD '\x00'

/-- A scanner after a piece of text, with what is left. -/
def past (scanner : Scanner) (piece left : List Char) : Scanner :=
  { scanner with offset := scanner.offset + byteLength piece, rest := left }

/-- The place of a scanner. -/
def position (scanner : Scanner) : Position := ⟨UInt32.ofNat scanner.offset, scanner.file⟩

/-! ## §2. Tokens. -/

/-- The character that a token remembers, given the text after the token.  A comment
is no part of the program, so a token that touches one remembers nothing.

The character is taken from that text and not looked up at the place where the token
stops.  In a text of less than 2³² bytes the two are the same (`trailing_of_tokenize`);
in a longer one a place may go round and lie elsewhere. -/
def trailing (left : List Char) : Option Char :=
  if startsComment left then none else left.head?

/-- The token that a piece of text is, at the place of the scanner. -/
def token (scanner : Scanner) (kind : Kind) (piece left : List Char) : Token where
  kind := kind
  text := String.ofList piece
  start := UInt32.ofNat scanner.offset
  stop := UInt32.ofNat (scanner.offset + byteLength piece)
  trailing := trailing left

/-- The token at the end of a text. -/
def endToken (scanner : Scanner) : Token where
  kind := .eof
  text := Token.eofText
  start := UInt32.ofNat scanner.offset
  stop := UInt32.ofNat scanner.offset
  trailing := none

/-- The error at a character that starts no token. -/
def unrecognised (scanner : Scanner) : Error :=
  ⟨.unrecognisedToken (String.singleton scanner.head), scanner.position⟩

/-- The tokens from the place of the scanner on, with the end marked. -/
def tokens? (scanner : Scanner) : Except Error (List Token) :=
  match taken : split? scanner.rest with
  | none => if scanner.atEnd then .ok [scanner.endToken] else .error scanner.unrecognised
  | some (lexeme, left) =>
    have _ := length_lt_of_split? taken
    match lexeme.kind? with
    | none => (scanner.past lexeme.text left).tokens?
    | some kind =>
      (scanner.past lexeme.text left).tokens?.map (scanner.token kind lexeme.text left :: ·)
termination_by scanner.rest.length

end Scanner

/-- The tokens of a named text. -/
def tokenize (file source : String) : Except Error (List Token) :=
  (Scanner.start file source).tokens?

/-! ## §3. The end of a text is always marked. -/

namespace Scanner

theorem tokens?_eq_append {scanner : Scanner} {tokens : List Token}
    (h : scanner.tokens? = .ok tokens) :
    ∃ before last, tokens = before ++ [last] ∧ last.kind = .eof := by
  fun_induction tokens? scanner generalizing tokens with
  | case1 scanner =>
    cases h
    exact ⟨[], scanner.endToken, rfl, rfl⟩
  | case2 => exact absurd h nofun
  | case3 _ _ _ _ _ _ ih => exact ih h
  | case4 scanner lexeme left taken _ kind hkind ih =>
    match hrest : (scanner.past lexeme.text left).tokens? with
    | .error e => rw [hrest] at h; exact absurd h nofun
    | .ok rest =>
      rw [hrest] at h
      obtain ⟨before, last, rfl, hlast⟩ := ih hrest
      cases h
      exact ⟨_ :: before, last, rfl, hlast⟩

theorem tokens?_ne_nil {scanner : Scanner} {tokens : List Token}
    (h : scanner.tokens? = .ok tokens) : tokens ≠ [] := by
  obtain ⟨before, last, rfl, _⟩ := tokens?_eq_append h
  simp

end Scanner
end Fixity
