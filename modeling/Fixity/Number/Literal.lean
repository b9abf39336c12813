/-
  Fixity.Number.Literal
  ────────────────────────────────
  **READING A NUMBER FROM ITS TEXT.**

  A literal is an optional sign followed by `inf`, `infinity` or `nan` in any
  case of letters, or by a decimal: digits with at most one point among or
  around them, at least one digit in all, and then perhaps `e` or `E` with a
  signed whole exponent.  Nothing may stand before, between or after.

  Program text spells only `digits` and `digits.digits`; the other forms can
  reach a token list that was not cut from a text.

  Main result: `digitsValue_append` (place value).
-/
import Fixity.Number.Rounding

namespace Fixity.Number

/-- The value of one decimal digit. -/
def digitValue (c : Char) : Nat := c.toNat - '0'.toNat

/-- The number that a row of decimal digits spells. -/
def digitsValue (digits : List Char) : Nat :=
  digits.foldl (fun value c => 10 * value + digitValue c) 0

/-- Splits a leading sign off; a text without one is positive. -/
def splitSign : List Char → Bool × List Char
  | '-' :: rest => (true, rest)
  | '+' :: rest => (false, rest)
  | text => (false, text)

/-- Reads an exponent: nothing at all, or `e` and a signed whole number. -/
def exponent? : List Char → Option Int
  | [] => some 0
  | c :: rest =>
    if c = 'e' ∨ c = 'E' then
      let (negative, digits) := splitSign rest
      if digits ≠ [] ∧ digits.all Char.isDigit then
        some (if negative then -(digitsValue digits : Int) else digitsValue digits)
      else none
    else none

/-- A decimal text split into the digits before the point, those after it, and
what follows. -/
def splitPoint (text : List Char) : List Char × List Char × List Char :=
  match text.dropWhile Char.isDigit with
  | '.' :: rest => (text.takeWhile Char.isDigit, rest.takeWhile Char.isDigit,
      rest.dropWhile Char.isDigit)
  | rest => (text.takeWhile Char.isDigit, [], rest)

/-- Reads an unsigned decimal. -/
def decimal? (negative : Bool) (text : List Char) : Option Number :=
  let (whole, fraction, rest) := splitPoint text
  if whole = [] ∧ fraction = [] then none
  else (exponent? rest).map fun exponent =>
    ofDecimal negative (digitsValue (whole ++ fraction)) (exponent - fraction.length)

/-- Reads a number from the characters of its text. -/
def ofChars? (text : List Char) : Option Number :=
  let (negative, magnitude) := splitSign text
  let word := String.ofList (magnitude.map Char.toLower)
  if word = "inf" ∨ word = "infinity" then some (infinite negative)
  else if word = "nan" then some nan
  else decimal? negative magnitude

/-- Reads a number from its text. -/
def ofText? (text : String) : Option Number := ofChars? text.toList

/-! ## §1. Place value. -/

theorem foldl_digits (digits : List Char) (start : Nat) :
    digits.foldl (fun value c => 10 * value + digitValue c) start
      = start * tenTo digits.length + digitsValue digits := by
  induction digits generalizing start with
  | nil => simp [digitsValue, tenTo]
  | cons c rest ih =>
    rw [digitsValue, List.foldl_cons, List.foldl_cons, ih, ih]
    simp only [List.length_cons, tenTo_succ]
    grind

/-- Digits that follow move those before them up one place each. -/
theorem digitsValue_append (first second : List Char) :
    digitsValue (first ++ second)
      = digitsValue first * tenTo second.length + digitsValue second := by
  rw [digitsValue, List.foldl_append, foldl_digits]
  rfl

end Fixity.Number
