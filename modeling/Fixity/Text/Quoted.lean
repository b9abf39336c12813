/-
  Fixity.Text.Quoted
  ────────────────────────────────
  **TEXT QUOTED INSIDE A MESSAGE.**

  A message shows a piece of program text between double quotes, on one line
  and with nothing invisible in it: the quote and the backslash follow a
  backslash, four control characters have names, and every other hidden
  character is written by its code point in the fewest lower-case hexadecimal
  digits, between braces after a backslash and a `u`.

  Main result: `escape_of_plain` (all other characters stand for themselves).
-/
import Fixity.Text.Hidden

namespace Fixity.Text

/-- How one character is written inside quotes. -/
def escape (c : Char) : List Char :=
  match c with
  | '\x00' => ['\\', '0']
  | '\t' => ['\\', 't']
  | '\r' => ['\\', 'r']
  | '\n' => ['\\', 'n']
  | '"' => ['\\', '"']
  | '\\' => ['\\', '\\']
  | c =>
    if isHidden c then ['\\', 'u', '\x7b'] ++ Nat.toDigits 16 c.toNat ++ ['\x7d']
    else [c]

/-- A text between double quotes, every character escaped as needed. -/
def quoted (text : String) : String :=
  String.ofList ('"' :: text.toList.flatMap escape ++ ['"'])

/-- A visible character other than the quote and the backslash stands for itself. -/
theorem escape_of_plain {c : Char} (visible : isHidden c = false) (quote : c ≠ '"')
    (backslash : c ≠ '\\') : escape c = [c] := by
  have hidden_controls :
      isHidden '\x00' ∧ isHidden '\t' ∧ isHidden '\r' ∧ isHidden '\n' := by decide
  unfold escape
  split <;> simp_all

end Fixity.Text
