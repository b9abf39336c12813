/-
  Fixity.Grammar.Production
  ────────────────────────────────
  **THE PRODUCTIONS OF AN EXPRESSION, AND WHAT PICKS ONE.**

  A production is a construct that can be read by itself.  The first token of a
  primary expression picks the production that reads it; the choice is a table
  that can be extended.

  Constructs contain one another.  Each is written as ONE step over a level: the
  choice of primaries, and a way of reading everything nested inside.  The
  recursion over levels is tied in `Fixity.Grammar.Descent`.

  Main results: `register_self`, `register_of_ne` (a registration speaks of one kind
  of token) and `restore_of_standard` (the choice of the language wins).
-/
import Fixity.Expr.Basic
import Fixity.Reading

namespace Fixity.Grammar

/-- A construct that can be read by itself. -/
inductive Production where
  /-- Operands with operators between them. -/
  | expression
  /-- An operand, perhaps behind operator characters. -/
  | unary
  /-- An operand that starts with neither. -/
  | primary
  | number | paren | identifier | array
  /-- An expression, or several between braces. -/
  | block
  | branch | countLoop | whileLoop | repeatLoop
deriving Repr, DecidableEq

/-- What a level asks of the level below. -/
inductive Goal where
  /-- To read a construct. -/
  | read (production : Production)
  /-- To extend an expression by the operators that follow, down to a precedence. -/
  | climb (loosest : UInt32) (left : Expr)

/-- Which production reads the primary expressions that start with a kind of token. -/
abbrev Choice := Kind → Option Production

namespace Choice

/-- The choice of the language. -/
def standard : Choice
  | .number => some .number
  | .identifier => some .identifier
  | .openParen => some .paren
  | .arrWord => some .array
  | .ifWord => some .branch
  | .forWord => some .countLoop
  | .whileWord => some .whileLoop
  | .reptWord => some .repeatLoop
  | _ => none

/-- Has one kind of token read by a production, in place of any other. -/
def register (choice : Choice) (kind : Kind) (production : Production) : Choice := fun other =>
  if other = kind then some production else choice other

/-- Puts the choice of the language back, and keeps what it does not speak of. -/
def restore (choice : Choice) : Choice := fun kind => (standard kind).or (choice kind)

theorem register_self (choice : Choice) (kind : Kind) (production : Production) :
    choice.register kind production kind = some production := if_pos rfl

/-- A registration changes nothing about other kinds. -/
theorem register_of_ne (choice : Choice) {kind other : Kind} (production : Production)
    (h : other ≠ kind) : choice.register kind production other = choice other := if_neg h

/-- What the language itself chooses is what is chosen once it is put back. -/
theorem restore_of_standard (choice : Choice) {kind : Kind} {production : Production}
    (h : standard kind = some production) : choice.restore kind = some production := by
  show (standard kind).or (choice kind) = some production
  rw [h, Option.some_or]

/-- The number of kinds that start a primary expression. -/
def size (choice : Choice) : Nat := (Kind.all.filter fun kind => (choice kind).isSome).length

end Choice

/-- What one construct is read over. -/
structure Level where
  /-- The productions of primary expressions. -/
  choice : Choice
  /-- How to read what is nested inside. -/
  below : Goal → Read Expr

namespace Level

/-- Reads an expression nested inside. -/
def expression (level : Level) : Read Expr := level.below (.read .expression)

/-- Reads an operand nested inside. -/
def unary (level : Level) : Read Expr := level.below (.read .unary)

/-- Reads a block, or a single expression, nested inside. -/
def block (level : Level) : Read Expr := level.below (.read .block)

end Level
end Fixity.Grammar
