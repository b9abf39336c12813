/-
  Fixity.Position
  ────────────────────────────────
  **A PLACE IN A NAMED TEXT.**

  A place is the number of bytes before it, in a word of thirty two bits, and the
  name of the file that the text came from.
-/

namespace Fixity

/-- The name under which a text is read when it has no other. -/
def defaultFile : String := "shell"

/-- A place in a named text. -/
structure Position where
  /-- Bytes before the place. -/
  offset : UInt32
  /-- The name of the file. -/
  file : String
deriving Repr, DecidableEq

/-- The place of a token list with nothing in it. -/
def Position.nowhere : Position := ⟨0, "<null>"⟩

end Fixity
