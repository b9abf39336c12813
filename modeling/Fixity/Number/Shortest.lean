/-
  Fixity.Number.Shortest
  ────────────────────────────────
  **A NUMBER IS WRITTEN WITH THE FEWEST DIGITS THAT READ BACK.**

  A positive finite number lies between two neighbours on the grid of the
  decimals with `n` significant digits.  The grids are tried from the coarsest
  to seventeen digits, and the first one with a neighbour that reads back as the
  number gives its digits; if both neighbours read back the nearer one is taken,
  and the upper one when they are equally near.

  Digits are always written out in full: no exponent, and no point in a whole
  number.

  Main result: `shortest?_reads_back` (whatever digits are chosen on a grid stand
  for the number itself).
-/
import Fixity.Number.Literal

namespace Fixity.Number

/-- A decimal: `digits · 10^exponent`. -/
structure Decimal where
  /-- The significant digits, as one number. -/
  digits : Nat
  /-- The power of ten that they count. -/
  exponent : Int
deriving Repr, DecidableEq

namespace Decimal

/-- The number nearest to a decimal. -/
def round (decimal : Decimal) : Number := ofDecimal false decimal.digits decimal.exponent

/-- Zeros in front of a row of digits, up to the given width. -/
def padded (width value : Nat) : String :=
  let digits := Nat.toDigits 10 value
  String.ofList (List.replicate (width - digits.length) '0' ++ digits)

/-- A decimal written out in full. -/
def text (decimal : Decimal) : String :=
  match decimal.exponent with
  | .ofNat exponent => toString (decimal.digits * tenTo exponent)
  | .negSucc less =>
    let scale := tenTo (less + 1)
    toString (decimal.digits / scale) ++ "." ++ padded (less + 1) (decimal.digits % scale)

end Decimal

/-! ## §1. The grids of a value. -/

/-- The value of `units` counted in steps of 10⁻¹⁰⁷⁴, which is exact. -/
@[irreducible] def decimalUnits (units : Nat) : Nat := units * Nat.pow 5 1074

/-- The number of decimal digits of a positive number, from that of its binary ones:
the decimal logarithm of two lies just above 1233/4096, which leaves one step to
check at the magnitudes that binary64 has. -/
def digitCount (n : Nat) : Nat :=
  let low := n.log2 * 1233 / 4096
  if n < tenTo (low + 1) then low + 1 else low + 2

/-- Of two decimals, the one that fits; `nearerBelow` decides if both do. -/
def choose? (fits : Decimal → Bool) (below above : Decimal) (nearerBelow : Bool) :
    Option Decimal :=
  if fits below && (!fits above || nearerBelow) then some below
  else if fits above then some above
  else none

/-- Whether a decimal reads back as the positive number of so many units. -/
def readsBack (units : Nat) (decimal : Decimal) : Bool := decimal.round == finite false units

/-- The neighbour of `units` on the grid that drops so many of the decimal digits of
its exact value, if one reads back as `units`; the nearer if both do. -/
def onGrid? (units exact dropped : Nat) : Option Decimal :=
  let step := tenTo dropped
  let exponent : Int := (dropped : Int) - 1074
  choose? (readsBack units) ⟨exact / step, exponent⟩ ⟨exact / step + 1, exponent⟩
    (2 * (exact % step) < step)

/-- The decimal with the fewest digits, of the grids up to seventeen digits. -/
def shortest? (units : Nat) : Option Decimal :=
  let exact := decimalUnits units
  let length := digitCount exact
  (List.range 18).findSome? fun count => onGrid? units exact (length - count)

/-- The shortest decimal of a positive value: no grid finer than seventeen digits
is ever needed for a binary64 value, and any other count of units is written
exactly. -/
def shortest (units : Nat) : Decimal := (shortest? units).getD ⟨decimalUnits units, -1074⟩

/-! ## §2. The text of a number. -/

/-- The text of a finite magnitude. -/
def magnitudeText (units : Nat) : String :=
  if units = 0 then "0" else (shortest units).text

/-- The text of a number. -/
def text : Number → String
  | nan => "NaN"
  | infinite false => "inf"
  | infinite true => "-inf"
  | finite false units => magnitudeText units
  | finite true units => "-" ++ magnitudeText units

/-! ## §3. What is chosen reads back. -/

theorem fits_of_choose? {fits : Decimal → Bool} {below above decimal : Decimal}
    {nearerBelow : Bool} (h : choose? fits below above nearerBelow = some decimal) :
    fits decimal = true := by
  unfold choose? at h
  split at h
  · next both =>
    rw [← Option.some.inj h]
    exact (Bool.and_eq_true_iff.1 both).1
  · split at h
    · next fitsAbove => rw [← Option.some.inj h]; exact fitsAbove
    · exact absurd h nofun

theorem onGrid?_reads_back {units exact dropped : Nat} {decimal : Decimal}
    (h : onGrid? units exact dropped = some decimal) : readsBack units decimal = true :=
  fits_of_choose? h

/-- Digits that a grid gives stand for the number itself. -/
theorem shortest?_reads_back {units : Nat} {decimal : Decimal}
    (h : shortest? units = some decimal) : readsBack units decimal = true := by
  obtain ⟨count, _, chosen⟩ := List.exists_of_findSome?_eq_some h
  exact onGrid?_reads_back chosen

end Fixity.Number
