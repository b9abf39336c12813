/-
  Fixity.Expr.Printed
  ────────────────────────────────
  **THE PRINTED FORM OF AN EXPRESSION.**

  An expression is printed with its operator or keyword in front and all grouping
  explicit: `a + b * c` is `(+ a (* b c))`.  A missing branch or step is left out,
  an index stands in brackets after its array, and a block is its statements in
  braces.

  Main result: `spaced_cons` (one blank goes before each member of a list).
-/
import Fixity.Expr.Basic
import Fixity.Number.Shortest

namespace Fixity.Expr

/-- The dimensions of an array as they are declared. -/
def dimensionsText (dimensions : List UInt32) : String :=
  String.join (dimensions.map fun dimension => "[" ++ toString dimension ++ "]")

mutual

/-- The printed form of an expression. -/
def text : Expr → String
  | number value => value.text
  | var name indices => name ++ bracketed indices
  | call callee arguments => "(call " ++ callee ++ spaced arguments ++ ")"
  | unary operator operand => "(" ++ operator.toString ++ " " ++ text operand ++ ")"
  | binary operator left right => "(" ++ operator ++ " " ++ text left ++ " " ++ text right ++ ")"
  | branch condition consequent alternative =>
    "(if " ++ text condition ++ " " ++ text consequent ++ spacedOption alternative ++ ")"
  | countLoop counter first last step body =>
    "(for " ++ counter ++ " " ++ text first ++ " " ++ text last ++ spacedOption step ++ " "
      ++ text body ++ ")"
  | whileLoop condition body => "(while " ++ text condition ++ " " ++ text body ++ ")"
  | repeatLoop times body => "(rept " ++ text times ++ " " ++ text body ++ ")"
  | array name dimensions => "(arr " ++ name ++ dimensionsText dimensions ++ ")"
  | block [] => "\x7b\x7d"
  | block (first :: rest) => "\x7b" ++ text first ++ spaced rest ++ "\x7d"
termination_by structural tree => tree

/-- Printed forms, each with a blank before it. -/
def spaced : List Expr → String
  | [] => ""
  | tree :: rest => " " ++ text tree ++ spaced rest
termination_by structural trees => trees

/-- The printed form of a part with a blank before it, or nothing. -/
def spacedOption : Option Expr → String
  | none => ""
  | some tree => " " ++ text tree
termination_by structural tree => tree

/-- Printed forms, each in brackets. -/
def bracketed : List Expr → String
  | [] => ""
  | tree :: rest => "[" ++ text tree ++ "]" ++ bracketed rest
termination_by structural trees => trees

end

@[simp] theorem spaced_nil : spaced [] = "" := by simp [spaced]

/-- A blank goes before each member of a list. -/
theorem spaced_cons (tree : Expr) (rest : List Expr) :
    spaced (tree :: rest) = " " ++ text tree ++ spaced rest := by simp [spaced]

instance : ToString Expr := ⟨text⟩

end Fixity.Expr
