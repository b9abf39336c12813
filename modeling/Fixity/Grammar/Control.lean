/-
  Fixity.Grammar.Control
  ────────────────────────────────
  **BLOCKS, CHOICES AND LOOPS.**

  A block is a row of expressions between braces, each perhaps followed by a
  semicolon; where a block may stand, a single expression may stand as well.  A
  text that ends inside a block has its own fault, since more text can mend it.
-/
import Fixity.Grammar.Chain

namespace Fixity.Grammar

open Read

/-! ## §1. Blocks. -/

/-- Reads a statement of a block, if the block is not over. -/
def statement (level : Level) : Read (Option Expr) := do
  match ← kind with
  | .closeBlock => return none
  | .eof => fail .unterminatedBlock
  | _ =>
    let statement ← level.block
    let _ ← taken .semicolon
    return some statement

/-- Reads a block, or a single expression. -/
def block (level : Level) : Read Expr := do
  if ← taken .openBlock then
    let statements ← many (statement level)
    advance
    return .block statements
  else expression level

/-! ## §2. Choices. -/

/-- Reads a part that is there only after a token of the given kind. -/
def optionally (mark : Kind) (part : Read Expr) : Read (Option Expr) := do
  if ← taken mark then return some (← part) else return none

/-- Reads a choice after its keyword. -/
def branch (level : Level) : Read Expr := do
  advance
  let condition ← level.expression
  take .thenWord "then"
  let consequent ← level.block
  return .branch condition consequent (← optionally .elseWord level.block)

/-! ## §3. Loops. -/

/-- Takes the equals sign between a counter and its first value. -/
def equalsSign : Read Unit := do
  if (← cursor).isSymbol '=' then advance else failFound (.expectedToken "=")

/-- Reads a loop that counts. -/
def countLoop (level : Level) : Read Expr := do
  advance
  let counter ← identifier
  equalsSign
  let first ← level.expression
  take .comma ","
  let last ← level.expression
  let step ← optionally .comma level.expression
  return .countLoop counter first last step (← level.block)

/-- Reads a loop as long as a condition holds. -/
def whileLoop (level : Level) : Read Expr := do
  advance
  let condition ← level.expression
  return .whileLoop condition (← level.block)

/-- Reads a loop a fixed number of times. -/
def repeatLoop (level : Level) : Read Expr := do
  advance
  take .openParen "("
  let times ← level.expression
  takeOr .closeParen .unmatchedParen
  return .repeatLoop times (← level.block)

end Fixity.Grammar
