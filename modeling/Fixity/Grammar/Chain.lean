/-
  Fixity.Grammar.Chain
  ────────────────────────────────
  **OPERANDS WITH OPERATORS BETWEEN THEM.**

  An expression is an operand followed by operators and operands.  The operators
  of at least some precedence are taken one by one, from the left; when the
  operator after an operand binds tighter than the one before it, the operand
  first takes everything of tighter precedence that follows.  So tighter
  operators group first, and operators of one precedence to the left.

  An operator that the table does not know, or that is looser than asked for,
  ends the expression; it is not an error here.

  Main result: `attach_append` (what follows hangs on what was read before).
-/
import Fixity.Grammar.Production

namespace Fixity.Grammar

open Read

/-! ## §1. Operands. -/

/-- Reads a primary expression by the production of its first token. -/
def primary (level : Level) : Read Expr := do
  match level.choice (← kind) with
  | some production => level.below (.read production)
  | none => failFound .unexpectedToken

/-- The operator character that a symbol puts in front of an operand: its first, if
that is of the alphabet. -/
def signOf? (text : String) : Option Char := text.toList.head?.filter Operator.isOperatorChar

/-- Reads an operand.  Every symbol at its start has to be an operator character. -/
def unary (level : Level) : Read Expr := do
  if (← kind) = .symbol then
    match signOf? (← text) with
    | some sign =>
      advance
      return .unary sign (← level.unary)
    | none => failFound .unknownOperator
  else primary level

/-! ## §2. Chains. -/

/-- The operator at the cursor and its precedence, if the table knows it. -/
def infixAhead? (state : ReadState) : Option (OperatorReading × UInt32) :=
  state.cursor.operator?.bind fun operator =>
    (state.table.lookup operator.spelling).map fun precedence => (operator, precedence)

/-- Whether the operator at the cursor binds tighter than a precedence. -/
def tighterAhead (state : ReadState) (precedence : UInt32) : Bool :=
  match infixAhead? state with
  | some (_, next) => precedence < next
  | none => false

/-- Reads the right side of an operator of the given precedence. -/
def rightSide (level : Level) (precedence : UInt32) : Read Expr := do
  let operand ← level.unary
  if tighterAhead (← get) precedence then level.below (.climb (precedence + 1) operand)
  else return operand

/-- Reads an operator of at least the given precedence and its right side. -/
def link (level : Level) (loosest : UInt32) : Read (Option (String × Expr)) := do
  match infixAhead? (← get) with
  | some (operator, precedence) =>
    if loosest ≤ precedence then
      advanceBy operator.width
      return some (operator.spelling, ← rightSide level precedence)
    else return none
  | none => return none

/-- Hangs operators and right sides on a left side, the first one innermost. -/
def attach (left : Expr) (links : List (String × Expr)) : Expr :=
  links.foldl (fun left link => .binary link.1 left link.2) left

/-- What follows in a chain hangs on what was read before it. -/
theorem attach_append (left : Expr) (links more : List (String × Expr)) :
    attach left (links ++ more) = attach (attach left links) more :=
  List.foldl_append

/-- Extends an expression by the operators that follow, down to a precedence. -/
def climb (level : Level) (loosest : UInt32) (left : Expr) : Read Expr := do
  return attach left (← many (link level loosest))

/-- Reads operands with operators between them. -/
def expression (level : Level) : Read Expr := do climb level 0 (← unary level)

end Fixity.Grammar
