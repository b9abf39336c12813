/-
  Fixity.Token
  ────────────────────────────────
  **TOKENS.**

  A token is a kind, the text it was cut from, the bytes where that text starts
  and stops, and the character that follows it directly.  The last is what tells
  two operator characters that touch from two that do not: `<=` is one operator
  and `< =` is two.

  Main result: `ofName?_name` (a kind is known by its name).
-/

namespace Fixity

/-- What a token is. -/
inductive Kind where
  | eof | number | identifier
  | openBracket | closeBracket | openBlock | closeBlock | openParen | closeParen
  | comma | semicolon
  /-- Any other punctuation character, the equals sign included. -/
  | symbol
  | ifWord | thenWord | elseWord | forWord | whileWord | reptWord | arrWord | funcWord
  | unaryWord | binaryWord
deriving Repr, DecidableEq

namespace Kind

/-- Every kind. -/
def all : List Kind :=
  [eof, number, identifier, openBracket, closeBracket, openBlock, closeBlock, openParen,
   closeParen, comma, semicolon, symbol, ifWord, thenWord, elseWord, forWord, whileWord,
   reptWord, arrWord, funcWord, unaryWord, binaryWord]

/-- The name of a kind in a listing of tokens. -/
def name : Kind → String
  | eof => "EOF"
  | number => "Number"
  | identifier => "Identifier"
  | openBracket => "OpenBracket"
  | closeBracket => "CloseBracket"
  | openBlock => "OpenBlock"
  | closeBlock => "CloseBlock"
  | openParen => "OpenParen"
  | closeParen => "CloseParen"
  | comma => "Comma"
  | semicolon => "Semicolon"
  | symbol => "Symbol"
  | ifWord => "If"
  | thenWord => "Then"
  | elseWord => "Else"
  | forWord => "For"
  | whileWord => "While"
  | reptWord => "Rept"
  | arrWord => "Arr"
  | funcWord => "Func"
  | unaryWord => "Unary"
  | binaryWord => "Binary"

/-- The kind with a given name. -/
def ofName? (name : String) : Option Kind := all.find? fun kind => kind.name == name

/-- The kind of a word: a reserved word has its own, any other is an identifier. -/
def ofWord (word : String) : Kind :=
  match word with
  | "if" => ifWord
  | "then" => thenWord
  | "else" => elseWord
  | "for" => forWord
  | "while" => whileWord
  | "rept" => reptWord
  | "arr" => arrWord
  | "func" => funcWord
  | "unary" => unaryWord
  | "binary" => binaryWord
  | _ => identifier

theorem mem_all (kind : Kind) : kind ∈ all := by cases kind <;> decide

/-- No two kinds share a name. -/
theorem ofName?_name (kind : Kind) : ofName? kind.name = some kind := by
  cases kind <;> decide

end Kind

/-- A piece of program text. -/
structure Token where
  /-- What it is. -/
  kind : Kind
  /-- The characters it was cut from. -/
  text : String
  /-- Bytes before it. -/
  start : UInt32
  /-- Bytes before its end. -/
  stop : UInt32
  /-- The character that follows it directly, unless that starts a comment. -/
  trailing : Option Char
deriving Repr, DecidableEq

namespace Token

/-- The text that stands for the end of the input. -/
def eofText : String := "EOF"

/-- A token in a listing: its kind, with its text where the kind leaves that open. -/
def listed (token : Token) : String :=
  match token.kind with
  | .number | .identifier | .symbol => token.kind.name ++ " (" ++ token.text ++ ")"
  | kind => kind.name

end Token
end Fixity
