/-
  Fixity.Form
  ────────────────────────────────
  **THE FORMS OF A PROGRAM.**

  A program is a list of forms.  A form is a definition, which names a function or
  declares an operator, or an expression, which stands under a prototype of its
  own without parameters.

  Main results: `operatorName?_binary`, `operatorName?_unary` (an operator's
  prototype gives back the spelling it was built from).
-/
import Fixity.Expr.Printed
import Fixity.Operator

namespace Fixity

/-- The head of a function: its name and parameters.  The name of an operator is
its spelling after a keyword. -/
structure Prototype where
  /-- The name. -/
  name : String
  /-- The names of the parameters. -/
  params : List String
  /-- Whether it declares an operator. -/
  isOperator : Bool
  /-- The precedence of a binary operator. -/
  precedence : UInt32
deriving Repr, DecidableEq

namespace Prototype

/-- The keyword in the name of an operator with one operand. -/
def unaryWord : String := "unary"

/-- The keyword in the name of an operator with two operands. -/
def binaryWord : String := "binary"

/-- The prototype of a named function. -/
def function (name : String) (params : List String) : Prototype :=
  ⟨name, params, false, Operator.tightest⟩

/-- The prototype that an expression stands under. -/
def anonymous : Prototype := function "__anon_expr" []

/-- Whether it declares an operator with one operand. -/
def isUnary (prototype : Prototype) : Bool :=
  prototype.isOperator && prototype.params.length == 1

/-- Whether it declares an operator with two operands. -/
def isBinary (prototype : Prototype) : Bool :=
  prototype.isOperator && prototype.params.length == 2

/-- What follows a keyword at the start of a name. -/
def afterWord? (word name : String) : Option String :=
  if word.toList.isPrefixOf name.toList then
    some (String.ofList (name.toList.drop word.toList.length))
  else none

/-- The spelling of the operator that a prototype declares. -/
def operatorName? (prototype : Prototype) : Option String :=
  if prototype.isUnary then afterWord? unaryWord prototype.name
  else if prototype.isBinary then afterWord? binaryWord prototype.name
  else none

/-- The printed form of a prototype. -/
def text (prototype : Prototype) : String :=
  prototype.name ++ "(" ++ ", ".intercalate prototype.params ++ ")"
    ++ if prototype.isBinary then " [precedence " ++ toString prototype.precedence ++ "]" else ""

theorem afterWord?_append (word rest : String) : afterWord? word (word ++ rest) = some rest := by
  simp [afterWord?]

/-- The prototype of an operator with one operand gives back its spelling. -/
theorem operatorName?_unary (spelling param : String) (precedence : UInt32) :
    operatorName? ⟨unaryWord ++ spelling, [param], true, precedence⟩ = some spelling := by
  simp [operatorName?, isUnary, afterWord?_append]

/-- The prototype of an operator with two operands gives back its spelling. -/
theorem operatorName?_binary (spelling first second : String) (precedence : UInt32) :
    operatorName? ⟨binaryWord ++ spelling, [first, second], true, precedence⟩ = some spelling := by
  simp [operatorName?, isUnary, isBinary, afterWord?_append]

end Prototype

/-- A prototype and what it stands for. -/
structure Function where
  /-- The head. -/
  prototype : Prototype
  /-- The body. -/
  body : Expr
deriving Repr, DecidableEq

/-- The printed form of a function. -/
def Function.text (function : Function) : String :=
  function.prototype.text ++ " = " ++ function.body.text

/-- A part of a program that stands by itself. -/
inductive Form where
  /-- A function or an operator is defined. -/
  | definition (function : Function)
  /-- An expression, under the anonymous prototype. -/
  | expression (function : Function)
deriving Repr, DecidableEq

namespace Form

/-- The function that a form holds. -/
def function : Form → Function
  | definition function | expression function => function

/-- The line that shows a form. -/
def line : Form → String
  | definition function => "def " ++ function.text
  | expression function => "expr " ++ function.body.text

end Form
end Fixity
