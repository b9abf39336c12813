/-
  Fixity.Fault
  ────────────────────────────────
  **WHAT CAN BE WRONG WITH A PROGRAM.**

  A fault is a cause, with the pieces of program text that show it.  Each fault
  has a name, a message of one line, in which program text is quoted, and, but
  for one, a tip, in which it stands as it is.  An error is a fault at a place.
-/
import Fixity.Position
import Fixity.Text.Quoted

namespace Fixity

open Text (quoted)

/-- The cause of an error. -/
inductive Fault where
  /-- A character that starts no token. -/
  | unrecognisedToken (token : String)
  /-- A number token whose text is no number. -/
  | badNumber (token : String)
  /-- A token that starts no expression. -/
  | unexpectedToken (token : String)
  /-- Another token was needed here. -/
  | expectedToken (expected found : String)
  /-- A name was needed here. -/
  | expectedIdentifier (found : String)
  /-- A parenthesis is not closed where its content ends. -/
  | unmatchedParen
  /-- A pair of brackets without an index between them. -/
  | missingIndex (name : String)
  /-- A dimension that is no whole number in range. -/
  | invalidDimension (found : String)
  /-- An array declared without a dimension. -/
  | missingDimension (name : String)
  /-- An argument is followed neither by a comma nor by the end of the list. -/
  | expectedCommaOrParen (found : String)
  /-- A symbol in front of an operand that is no operator character. -/
  | unknownOperator (token : String)
  /-- The text ends inside a block. -/
  | unterminatedBlock
  /-- A definition that names nothing. -/
  | expectedFunctionName (found : String)
  /-- An operator definition without the symbol. -/
  | expectedOperatorSymbol (found : String)
  /-- An operator defined with the wrong number of operands. -/
  | arityMismatch (operator : String) (expected received : Nat)
  /-- A parameter is followed neither by a comma nor by the end of the list. -/
  | expectedParamOrParen (found : String)
  /-- A precedence that is no whole number in range. -/
  | invalidPrecedence (found : String)
deriving Repr, DecidableEq

namespace Fault

/-! ## §1. The three texts of a fault. -/

/-- The name of a kind of fault. -/
def name : Fault → String
  | unrecognisedToken _ => "UnrecognisedToken"
  | badNumber _ => "NumberParseError"
  | unexpectedToken _ => "UnexpectedToken"
  | expectedToken _ _ => "ExpectedToken"
  | expectedIdentifier _ => "ExpectedIdentifier"
  | unmatchedParen => "UnmatchedParen"
  | missingIndex _ => "MissingArrayIndex"
  | invalidDimension _ => "InvalidArrayDimension"
  | missingDimension _ => "MissingArrayDimension"
  | expectedCommaOrParen _ => "ExpectedCommaOrParen"
  | unknownOperator _ => "UnknownOperatorToken"
  | unterminatedBlock => "UnterminatedBlock"
  | expectedFunctionName _ => "ExpectedFunctionName"
  | expectedOperatorSymbol _ => "ExpectedOperatorSymbol"
  | arityMismatch _ _ _ => "ArityMismatch"
  | expectedParamOrParen _ => "ExpectedParamOrParen"
  | invalidPrecedence _ => "InvalidPrecedence"

/-- What a fault is, in one line with program text quoted. -/
def message : Fault → String
  | unrecognisedToken token => "unrecognised token: " ++ quoted token
  | badNumber token => "error parsing number: " ++ quoted token
  | unexpectedToken token => "unexpected token: " ++ quoted token
  | expectedToken expected found =>
    "expected " ++ quoted expected ++ ", found " ++ quoted found
  | expectedIdentifier found => "expected identifier, found " ++ quoted found
  | unmatchedParen => "unmatched parenthesis"
  | missingIndex name => "array index missing for " ++ quoted name
  | invalidDimension found => "invalid array dimension: " ++ quoted found
  | missingDimension name => "array dimension missing for " ++ quoted name
  | expectedCommaOrParen found =>
    "expected ')' or ',' in argument list, found " ++ quoted found
  | unknownOperator token => "unknown operator token " ++ quoted token
  | unterminatedBlock => "unterminated block"
  | expectedFunctionName found =>
    "expected function name in prototype, found " ++ quoted found
  | expectedOperatorSymbol found => "expected operator symbol, found " ++ quoted found
  | arityMismatch operator expected received =>
    "invalid number of operands for " ++ quoted operator ++ ": expected " ++ toString expected
      ++ ", received " ++ toString received
  | expectedParamOrParen found =>
    "expected ',' or ')' in parameter list, found " ++ quoted found
  | invalidPrecedence found => "invalid precedence " ++ quoted found ++ ": must be 1~18"

/-- What would put a fault right, with program text as it is. -/
def tip? : Fault → Option String
  | unrecognisedToken _ => none
  | badNumber token => some ("Invalid number: `" ++ token ++ "`")
  | unexpectedToken token =>
    some ("Unexpected token: `" ++ token ++ "` when expecting an expression")
  | expectedToken expected found =>
    some ("Expected `" ++ expected ++ "`, found `" ++ found ++ "`")
  | expectedIdentifier found => some ("Expected an identifier, found `" ++ found ++ "`")
  | unmatchedParen => some "expected `)` to close `(`"
  | missingIndex name => some ("Array `" ++ name ++ "` is indexed with an empty `[]`")
  | invalidDimension found =>
    some ("Length of each dimension must be an integer of 1 or higher, found `" ++ found ++ "`")
  | missingDimension name => some ("Array `" ++ name ++ "` is declared without dimensions")
  | expectedCommaOrParen found =>
    some ("Expected `)` or `,` in argument list, found `" ++ found ++ "`")
  | unknownOperator token => some ("`" ++ token ++ "` is not an operator character")
  | unterminatedBlock => some "Block is missing its closing `\x7d`"
  | expectedFunctionName found =>
    some ("Expected function name in prototype, found `" ++ found ++ "`")
  | expectedOperatorSymbol found =>
    some ("Expected an operator symbol after `unary` or `binary`, found `" ++ found ++ "`")
  | arityMismatch operator expected received =>
    some ("Operator `" ++ operator ++ "` takes " ++ toString expected ++ " operands, received "
      ++ toString received)
  | expectedParamOrParen found =>
    some ("Expected `,` or `)` in parameter list, found `" ++ found ++ "`")
  | invalidPrecedence found =>
    some ("Invalid precedence `" ++ found ++ "`: must be an integer from 1 to 18")

end Fault

/-! ## §2. Errors. -/

/-- A fault at a place. -/
structure Error where
  /-- What is wrong. -/
  fault : Fault
  /-- Where it is. -/
  position : Position
deriving Repr, DecidableEq

/-- The one line of an error: the fault, the file and the byte. -/
def Error.message (error : Error) : String :=
  error.fault.message ++ " at " ++ error.position.file ++ ":" ++ toString error.position.offset

end Fixity
