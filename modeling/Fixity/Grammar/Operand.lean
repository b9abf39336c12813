/-
  Fixity.Grammar.Operand
  ────────────────────────────────
  **NUMBERS, NAMES, PARENTHESES AND ARRAYS.**

  The operands that are no control flow: a number; an expression in parentheses;
  a variable, an element of an array or a call; and the declaration of an array.
  An index and a dimension may not be left out, and a dimension is a whole number
  that a word of thirty two bits holds.
-/
import Fixity.Grammar.Production

namespace Fixity.Grammar

open Read

/-! ## §1. Numbers and parentheses. -/

/-- Reads a number. -/
def number : Read Expr := do return .number (← numberWith some .badNumber)

/-- Reads an expression in parentheses; it leaves no trace in the tree. -/
def paren (level : Level) : Read Expr := do
  advance
  let content ← level.expression
  takeOr .closeParen .unmatchedParen
  return content

/-! ## §2. Brackets. -/

/-- Reads a pair of brackets with something in it, if one is there. -/
def bracket {α : Type} (empty : Fault) (content : Read α) : Read (Option α) := do
  if ← taken .openBracket then
    if (← kind) = .closeBracket then fail empty
    else
      let value ← content
      take .closeBracket "]"
      return some value
  else return none

/-- The dimension that a number gives: a whole number from 1 to 2³² − 1. -/
def dimension? (value : Number) : Option UInt32 :=
  (value.natural?.filter fun n => 1 ≤ n ∧ n < UInt32.size).map UInt32.ofNat

/-- Reads the declaration of an array. -/
def array : Read Expr := do
  advance
  let name ← identifier
  if (← kind) = .openBracket then
    return .array name
      (← many (bracket (.missingDimension name) (numberWith dimension? .invalidDimension)))
  else fail (.missingDimension name)

/-! ## §3. Names. -/

/-- Reads an element of an array after its name. -/
def element (level : Level) (name : String) : Read Expr := do
  return .var name (← many (bracket (.missingIndex name) level.expression))

/-- Reads a call after the name of the function. -/
def call (level : Level) (name : String) : Read Expr := do
  advance
  return .call name (← separated level.expression .expectedCommaOrParen)

/-- Reads a name and what it is followed by. -/
def named (level : Level) : Read Expr := do
  let name ← identifier
  match ← kind with
  | .openBracket => element level name
  | .openParen => call level name
  | _ => return .scalar name

end Fixity.Grammar
