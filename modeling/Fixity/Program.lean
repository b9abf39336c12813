/-
  Fixity.Program
  ────────────────────────────────
  **PROGRAMS.**

  A program is read form by form; semicolons between forms are passed over, and
  the end of the tokens ends the program.  The first error ends the reading: no
  form is given, but the operators declared before it stay in the table.

  The table goes in and comes out, so that what one program declares the next
  can use.
-/
import Fixity.Grammar.Descent
import Fixity.Grammar.Heading
import Fixity.Scanner

namespace Fixity

namespace Grammar

open Read

/-! ## §1. Forms. -/

/-- Reads a definition with its keyword. -/
def definition (choice : Choice) : Read Function := do
  take .funcWord "func"
  let prototype ← heading
  return ⟨prototype, ← read choice .block⟩

/-- Reads an expression that stands by itself. -/
def freeExpression (choice : Choice) : Read Function := do
  return ⟨Prototype.anonymous, ← read choice .block⟩

/-- The tokens after the semicolons at their start; the last token stays. -/
def dropSemicolons : List Token → List Token
  | token :: next :: rest =>
    if token.kind = .semicolon then dropSemicolons (next :: rest) else token :: next :: rest
  | tokens => tokens

/-- Passes over semicolons. -/
def skipSemicolons : Read Unit := modify fun state =>
  { state with cursor := { state.cursor with tokens := dropSemicolons state.cursor.tokens } }

/-- Reads a form, if the tokens are not over. -/
def form (choice : Choice) : Read (Option Form) := do
  skipSemicolons
  match ← kind with
  | .eof => return none
  | .funcWord => return some (.definition (← definition choice))
  | _ => return some (.expression (← freeExpression choice))

/-- Reads forms up to the end of the tokens. -/
def forms (choice : Choice) : Read (List Form) := many (form choice)

end Grammar

/-! ## §2. Programs. -/

/-- Results are compared by what they hold. -/
instance decidableEqExcept {ε α : Type} [DecidableEq ε] [DecidableEq α] : DecidableEq (Except ε α)
  | .ok a, .ok b => decidable_of_iff (a = b) (by simp)
  | .error a, .error b => decidable_of_iff (a = b) (by simp)
  | .ok _, .error _ => isFalse nofun
  | .error _, .ok _ => isFalse nofun

/-- What reading a program gives: forms or an error, and the table in either case. -/
structure Outcome where
  /-- The forms, or the first error. -/
  result : Except Error (List Form)
  /-- The operators known at the end. -/
  table : Operator.Table
deriving DecidableEq

namespace Program

/-- Reads a program from its tokens. -/
def ofTokens (file : String) (tokens : List Token) (table : Operator.Table) : Outcome :=
  match (Grammar.forms .standard).run ⟨⟨file, tokens⟩, table⟩ with
  | .ok forms state => ⟨.ok forms, state.table⟩
  | .error error state => ⟨.error error, state.table⟩

/-- Reads a program from its text. -/
def ofSource (file source : String) (table : Operator.Table) : Outcome :=
  match tokenize file source with
  | .ok tokens => ofTokens file tokens table
  | .error error => ⟨.error error, table⟩

/-- Whether two texts are the same program, or fail in the same way. -/
def agree (first second : String) : Bool :=
  match (ofSource defaultFile first .standard).result,
    (ofSource defaultFile second .standard).result with
  | .ok forms, .ok others => forms == others
  | .error error, .error other => error == other
  | _, _ => false

end Program
end Fixity
