/-
  Fixity.Grammar.Heading
  ────────────────────────────────
  **THE HEAD OF A DEFINITION.**

  A definition names a function, or declares an operator with one or with two
  operands by a keyword and the operator itself.  An operator with two operands
  enters the table AS SOON AS its spelling and precedence are read, before its
  parameters: it can be used in its own body, and it stays declared if the rest
  of the definition is faulty.

  Parameters stand in places separated by commas.  A place that holds something
  other than an identifier counts as a place but gives no parameter; whether an
  operator has as many parameters as operands is checked at the end.

  Main results: `operatorName?_unary_prototype`, `operatorName?_binary_prototype`
  (the prototype of an operator gives back its spelling).
-/
import Fixity.Form
import Fixity.Grammar.Production

namespace Fixity.Grammar

open Read

/-! ## §1. What is defined. -/

/-- What a definition gives a meaning to. -/
inductive Subject where
  /-- A function. -/
  | function (name : String)
  /-- An operator in front of its operand. -/
  | unary (symbol : String)
  /-- An operator between its operands. -/
  | binary (spelling : String) (precedence : UInt32)
deriving Repr, DecidableEq

namespace Subject

/-- The name of the prototype. -/
def name : Subject → String
  | function name => name
  | unary symbol => Prototype.unaryWord ++ symbol
  | binary spelling _ => Prototype.binaryWord ++ spelling

/-- The number of operands of an operator. -/
def operands? : Subject → Option Nat
  | function _ => none
  | unary _ => some 1
  | binary _ _ => some 2

/-- The precedence that the prototype records. -/
def precedence : Subject → UInt32
  | binary _ precedence => precedence
  | _ => Operator.tightest

/-- The prototype with the given parameters. -/
def prototype (subject : Subject) (params : List String) : Prototype :=
  ⟨subject.name, params, subject.operands?.isSome, subject.precedence⟩

theorem operatorName?_unary_prototype (symbol param : String) :
    ((unary symbol).prototype [param]).operatorName? = some symbol :=
  Prototype.operatorName?_unary symbol param Operator.tightest

theorem operatorName?_binary_prototype (spelling first second : String) (precedence : UInt32) :
    ((binary spelling precedence).prototype [first, second]).operatorName? = some spelling :=
  Prototype.operatorName?_binary spelling first second precedence

end Subject

/-- Reads the symbol of an operator with one operand: operator characters only. -/
def unarySubject : Read Subject := do
  advance
  if (← kind) = .symbol then
    let symbol ← text
    if symbol.toList.all Operator.isOperatorChar then
      advance
      return .unary symbol
    else fail (.unknownOperator symbol)
  else failFound .expectedOperatorSymbol

/-- The precedence that a number gives: a whole number from 1 to 18. -/
def precedence? (value : Number) : Option UInt32 :=
  (value.natural?.filter fun n =>
    Operator.loosest.toNat ≤ n ∧ n ≤ Operator.tightest.toNat).map UInt32.ofNat

/-- Reads a precedence, if a number is there. -/
def declaredPrecedence : Read UInt32 := do
  if (← kind) = .number then numberWith precedence? .invalidPrecedence
  else return Operator.tightest

/-- Reads the operator with two operands and its precedence, and declares it. -/
def binarySubject : Read Subject := do
  advance
  match (← cursor).operator? with
  | none => failFound .expectedOperatorSymbol
  | some operator =>
    advanceBy operator.width
    let precedence ← declaredPrecedence
    declare operator.spelling precedence
    return .binary operator.spelling precedence

/-- Reads what is defined. -/
def subject : Read Subject := do
  match ← kind with
  | .identifier => return .function (← identifier)
  | .unaryWord => unarySubject
  | .binaryWord => binarySubject
  | _ => failFound .expectedFunctionName

/-! ## §2. Parameters. -/

/-- Reads one place of a parameter list; only an identifier gives a parameter. -/
def slot : Read (Option String) := do
  if (← kind) = .eof then failFound .expectedParamOrParen
  else
    let param := (← cursor).identifier?
    advance
    return param

/-- Reads parameters after the opening parenthesis. -/
def params : Read (List String) := do
  return (← separated slot .expectedParamOrParen).filterMap id

/-- Reads the head of a definition. -/
def heading : Read Prototype := do
  let subject ← subject
  take .openParen "("
  let params ← params
  match subject.operands? with
  | some operands =>
    if params.length = operands then return subject.prototype params
    else fail (.arityMismatch subject.name operands params.length)
  | none => return subject.prototype params

end Fixity.Grammar
