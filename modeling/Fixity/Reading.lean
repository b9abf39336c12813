/-
  Fixity.Reading
  ────────────────────────────────
  **READING A PROGRAM FROM ITS TOKENS.**

  Reading moves a cursor over the tokens and adds operators to the table; it
  gives a result or stops with an error.  An error leaves the cursor and the
  table AS THEY ARE at that moment: what was read stays read, and what was
  declared stays declared.

  This module holds the steps that every construct is made of: looking at the
  current token, taking one that is needed, failing there, and the two kinds of
  repetition.  A repetition is given a bound by the tokens that are left, which
  it does not reach as long as every round takes a token.
-/
import Fixity.Cursor
import Fixity.Fault
import Fixity.Operator.Table

namespace Fixity

/-- What reading changes. -/
structure ReadState where
  /-- Where it is. -/
  cursor : Cursor
  /-- The operators known so far. -/
  table : Operator.Table
deriving DecidableEq

/-- A way of reading something. -/
abbrev Read (α : Type) := EStateM Error ReadState α

namespace Read

/-! ## §1. Looking, moving, failing. -/

/-- The cursor. -/
def cursor : Read Cursor := do return (← get).cursor

/-- The kind of the current token. -/
def kind : Read Kind := do return (← cursor).kind

/-- The text of the current token. -/
def text : Read String := do return (← cursor).text

/-- Moves to the next token. -/
def advance : Read Unit := modify fun state => { state with cursor := state.cursor.advance }

/-- Moves over several tokens. -/
def advanceBy (count : Nat) : Read Unit :=
  modify fun state => { state with cursor := state.cursor.advanceBy count }

/-- Stops with a fault at the current token. -/
def fail {α : Type} (fault : Fault) : Read α := do throw ⟨fault, (← cursor).position⟩

/-- Stops with a fault that shows the text of the current token. -/
def failFound {α : Type} (fault : String → Fault) : Read α := do fail (fault (← text))

/-- Gives a spelling a precedence. -/
def declare (spelling : String) (precedence : UInt32) : Read Unit :=
  modify fun state => { state with table := state.table.declare spelling precedence }

/-! ## §2. Tokens that are needed. -/

/-- Takes a token of the given kind, or stops with the given fault. -/
def takeOr (needed : Kind) (fault : Fault) : Read Unit := do
  if (← kind) = needed then advance else fail fault

/-- Takes a token of the given kind, shown in the error as `shown`. -/
def take (needed : Kind) (shown : String) : Read Unit := do
  takeOr needed (.expectedToken shown (← text))

/-- Takes an identifier. -/
def identifier : Read String := do
  match (← cursor).identifier? with
  | some name => advance; return name
  | none => failFound .expectedIdentifier

/-- Takes a number whose value is accepted, or stops with a fault that shows it. -/
def numberWith {α : Type} (accept : Number → Option α) (fault : String → Fault) : Read α := do
  match (← cursor).number?.bind accept with
  | some value => advance; return value
  | none => failFound fault

/-- Takes a token of the given kind, if it is there. -/
def taken (wanted : Kind) : Read Bool := do
  if (← kind) = wanted then
    advance
    return true
  else return false

/-! ## §3. Repetition. -/

/-- Reads items until there is none, in at most `bound` rounds. -/
def upTo {α : Type} (item : Read (Option α)) : Nat → Read (List α)
  | 0 => failFound .unexpectedToken
  | bound + 1 => do
    match ← item with
    | none => return []
    | some first => return first :: (← upTo item bound)

/-- More rounds than there are tokens to take. -/
def rounds : Read Nat := do return (← cursor).tokens.length + 1

/-- Reads items until there is none. -/
def many {α : Type} (item : Read (Option α)) : Read (List α) := do upTo item (← rounds)

/-- Reads items with commas between them, up to and with the closing parenthesis, in
at most `bound` rounds. -/
def separatedUpTo {α : Type} (item : Read α) (fault : String → Fault) : Nat → Read (List α)
  | 0 => failFound .unexpectedToken
  | bound + 1 => do
    let first ← item
    match ← kind with
    | .closeParen => advance; return [first]
    | .comma => advance; return first :: (← separatedUpTo item fault bound)
    | _ => failFound fault

/-- Reads what stands between parentheses after the first: items with commas
between them, perhaps none at all. -/
def separated {α : Type} (item : Read α) (fault : String → Fault) : Read (List α) := do
  if ← taken .closeParen then return []
  else separatedUpTo item fault (← rounds)

end Read
end Fixity
