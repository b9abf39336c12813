/-
  Fixity.Expr.Basic
  ────────────────────────────────
  **EXPRESSIONS.**

  Every construct of the language is an expression.  A tree says nothing of the
  parentheses it was written with.

  Main result: `same_iff` (the walk over two trees at once decides equality).
-/
import Fixity.Number.Basic

namespace Fixity

/-- An expression. -/
inductive Expr where
  /-- A number. -/
  | number (value : Number)
  /-- A variable, or an element of an array with one index for each dimension. -/
  | var (name : String) (indices : List Expr)
  /-- A call of a function by name. -/
  | call (callee : String) (arguments : List Expr)
  /-- An operator character in front of an operand. -/
  | unary (operator : Char) (operand : Expr)
  /-- An operator between two operands. -/
  | binary (operator : String) (left right : Expr)
  /-- A choice; the second branch may be missing. -/
  | branch (condition consequent : Expr) (alternative : Option Expr)
  /-- A loop that counts; the step may be missing. -/
  | countLoop (counter : String) (first last : Expr) (step : Option Expr) (body : Expr)
  /-- A loop as long as a condition holds. -/
  | whileLoop (condition body : Expr)
  /-- A loop a fixed number of times. -/
  | repeatLoop (times body : Expr)
  /-- The declaration of an array by its dimensions. -/
  | array (name : String) (dimensions : List UInt32)
  /-- Expressions in order, between braces. -/
  | block (statements : List Expr)
deriving Repr

namespace Expr

/-- A variable that is no element of an array. -/
abbrev scalar (name : String) : Expr := var name []

/-- The name of a kind of expression. -/
def kindName : Expr → String
  | number .. => "Number"
  | var .. => "Variable"
  | call .. => "Call"
  | unary .. => "Unary"
  | binary .. => "Binary"
  | branch .. => "If"
  | countLoop .. => "For"
  | whileLoop .. => "While"
  | repeatLoop .. => "Repeat"
  | array .. => "ArrayDecl"
  | block .. => "Block"

/-- The number of elements of an array with the given dimensions. -/
def elementTotal (dimensions : List UInt32) : Nat :=
  dimensions.foldr (fun dimension total => dimension.toNat * total) 1

/-- The number of elements of an array, if a word of sixty four bits holds it. -/
def elementCount? (dimensions : List UInt32) : Option UInt64 :=
  let total := elementTotal dimensions
  if total < UInt64.size then some (UInt64.ofNat total) else none

/-! ## §1. Equality of trees. -/

mutual

/-- Walks over two trees at once. -/
def same : Expr → Expr → Bool
  | number a, number b => a == b
  | var name indices, var other others => name == other && sameAll indices others
  | call name arguments, call other others => name == other && sameAll arguments others
  | unary operator operand, unary other operand' => operator == other && same operand operand'
  | binary operator left right, binary other left' right' =>
    operator == other && same left left' && same right right'
  | branch condition consequent alternative, branch condition' consequent' alternative' =>
    same condition condition' && same consequent consequent'
      && sameOption alternative alternative'
  | countLoop counter first last step body, countLoop counter' first' last' step' body' =>
    counter == counter' && same first first' && same last last' && sameOption step step'
      && same body body'
  | whileLoop condition body, whileLoop condition' body' =>
    same condition condition' && same body body'
  | repeatLoop times body, repeatLoop times' body' => same times times' && same body body'
  | array name dimensions, array other dimensions' => name == other && dimensions == dimensions'
  | block statements, block statements' => sameAll statements statements'
  | _, _ => false
termination_by structural tree => tree

/-- Walks over two lists of trees at once. -/
def sameAll : List Expr → List Expr → Bool
  | [], [] => true
  | tree :: rest, tree' :: rest' => same tree tree' && sameAll rest rest'
  | _, _ => false
termination_by structural trees => trees

/-- Walks over two trees that may both be missing. -/
def sameOption : Option Expr → Option Expr → Bool
  | none, none => true
  | some tree, some tree' => same tree tree'
  | _, _ => false
termination_by structural tree => tree

end

mutual

/-- The walk accepts exactly equal trees. -/
theorem same_iff : ∀ (a b : Expr), same a b = true ↔ a = b
  | number _, b => by cases b <;> simp [same]
  | var _ indices, b => by cases b <;> simp [same, sameAll_iff indices]
  | call _ arguments, b => by cases b <;> simp [same, sameAll_iff arguments]
  | unary _ operand, b => by cases b <;> simp [same, same_iff operand]
  | binary _ left right, b => by
    cases b <;> simp [same, same_iff left, same_iff right, and_assoc]
  | branch condition consequent alternative, b => by
    cases b <;> simp [same, same_iff condition, same_iff consequent, sameOption_iff alternative,
      and_assoc]
  | countLoop _ first last step body, b => by
    cases b <;> simp [same, same_iff first, same_iff last, sameOption_iff step, same_iff body,
      and_assoc]
  | whileLoop condition body, b => by
    cases b <;> simp [same, same_iff condition, same_iff body]
  | repeatLoop times body, b => by cases b <;> simp [same, same_iff times, same_iff body]
  | array _ _, b => by cases b <;> simp [same]
  | block statements, b => by cases b <;> simp [same, sameAll_iff statements]

theorem sameAll_iff : ∀ (a b : List Expr), sameAll a b = true ↔ a = b
  | [], b => by cases b <;> simp [sameAll]
  | tree :: rest, b => by cases b <;> simp [sameAll, same_iff tree, sameAll_iff rest]

theorem sameOption_iff : ∀ (a b : Option Expr), sameOption a b = true ↔ a = b
  | none, b => by cases b <;> simp [sameOption]
  | some tree, b => by cases b <;> simp [sameOption, same_iff tree]

end

instance : DecidableEq Expr := fun a b => decidable_of_iff _ (same_iff a b)

end Expr
end Fixity
