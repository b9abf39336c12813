/-
  Fixity.Grammar.Descent
  ────────────────────────────────
  **READING TO ANY DEPTH.**

  Every construct is read over the level below it.  Reading goes down from one
  level to the next at most twice for each token that it takes, once to an
  expression and once to the production of its first operand.  The last token is
  never left, nor is the end that a list without tokens shows, so both steps can
  be made there once more.  With the construct that is asked for, twice as many
  levels as there are tokens, and three more, are enough.  Below the last level
  nothing can be read.
-/
import Fixity.Grammar.Control
import Fixity.Grammar.Operand

namespace Fixity.Grammar

/-- Reads a construct over a level. -/
def construct (level : Level) : Production → Read Expr
  | .expression => expression level
  | .unary => unary level
  | .primary => primary level
  | .number => number
  | .paren => paren level
  | .identifier => named level
  | .array => array
  | .block => block level
  | .branch => branch level
  | .countLoop => countLoop level
  | .whileLoop => whileLoop level
  | .repeatLoop => repeatLoop level

/-- Does over a level what is asked. -/
def pursue (level : Level) : Goal → Read Expr
  | .read production => construct level production
  | .climb loosest left => climb level loosest left

/-- Does what is asked over so many levels. -/
def descend (choice : Choice) : Nat → Goal → Read Expr
  | 0, _ => Read.failFound .unexpectedToken
  | depth + 1, goal => pursue ⟨choice, descend choice depth⟩ goal

/-- Levels enough for the tokens that are left, and for the place after them. -/
def depthFor (cursor : Cursor) : Nat := 2 * cursor.tokens.length + 3

/-- Does what is asked at the cursor. -/
def achieve (choice : Choice) (goal : Goal) : Read Expr := do
  descend choice (depthFor (← Read.cursor)) goal

/-- Reads a construct at the cursor. -/
def read (choice : Choice) (production : Production) : Read Expr :=
  achieve choice (.read production)

end Fixity.Grammar
