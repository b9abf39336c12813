/-
  Fixity.Operator
  ────────────────────────────────
  **OPERATOR CHARACTERS AND PRECEDENCES.**

  Eleven characters form the operator alphabet: each can stand in front of an
  operand, and two of them that touch are one operator.  A precedence that a
  program declares is a whole number from 1, the loosest, to 18, the tightest.
-/

namespace Fixity.Operator

/-- The operator alphabet. -/
def alphabet : List Char := ['<', '>', '+', '-', '*', '/', '%', '!', '&', '|', '=']

/-- Whether a character belongs to the operator alphabet. -/
def isOperatorChar (c : Char) : Bool := alphabet.contains c

/-- The loosest precedence. -/
def loosest : UInt32 := 1

/-- The tightest precedence, also that of an operator declared without one. -/
def tightest : UInt32 := 18

/-- Whether a program may declare a precedence. -/
def isValidPrecedence (precedence : UInt32) : Bool :=
  loosest ≤ precedence && precedence ≤ tightest

end Fixity.Operator
