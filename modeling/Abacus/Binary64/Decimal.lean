/-
# Decimal forms of binary64 numbers

A number is written with the fewest significant decimal digits that read back as the same number.
Where two decimals of that length read back, the nearer one is written, and of two equally near the
larger.  The form is always positional: no exponent, no point without digits on both sides.

Every number has such a form with at most 324 decimal places, because the decimals with 324 places
lie closer together than half a unit.  So a decimal is counted here in steps of `10^-324`, and the
search walks down the powers of ten `10^p` for the first one that has a reading multiple:

    below = the multiple of 10^p under the number      above = below + 10^p

Reading is the rounding of `Binary64/Rounding`, so "reads back" is the definition and not an
interval computed beside it.
-/
import Abacus.Binary64.Rounding
import Abacus.Text

namespace Abacus

-- Powers of natural numbers are those of the core library, also beside a theory with its own.
attribute [local instance (high)] instPowNat

/-! ## 1. Reading decimals -/

/-- The number nearest to `digits / 10^places`. -/
def Binary64.ofDecimal (digits places : Nat) : Binary64 :=
  Binary64.round false (digits * unitsPerOne) (10 ^ places)

/-! ## 2. The shortest decimal -/

/-- How many decimal places are enough for every number. -/
def decimalPlaces : Nat := 324

/-- How many of the smallest decimal steps the number one holds. -/
def decimalScale : Nat := 10 ^ decimalPlaces

/-- The decimal of `d` smallest steps is read as the magnitude of `units` units. -/
def readsBack (units d : Nat) : Bool :=
  nearestUnits (d * unitsPerOne) decimalScale == units

/-- The multiple of `10^p` that is written for a magnitude, if one next to it reads back. -/
def decimalAt? (units p : Nat) : Option Nat :=
  let cell := 10 ^ p
  let below := units * decimalScale / unitsPerOne / cell * cell
  let above := below + cell
  if readsBack units below then
    if readsBack units above && (below + above) * unitsPerOne ≤ 2 * units * decimalScale then
      some above
    else some below
  else if readsBack units above then some above
  else none

/-- The first reading multiple on the way down from `10^p`. -/
def decimalFrom (units : Nat) : Nat → Nat
  | 0 => (decimalAt? units 0).getD 0
  | p + 1 => (decimalAt? units (p + 1)).getD (decimalFrom units p)

/-- The shortest decimal of a magnitude, in steps of `10^-324`.  The search starts at a power of ten
above the magnitude: three tenths of the binary digits, and a little more. -/
def shortestDecimal (units : Nat) : Nat :=
  decimalFrom units (((units * decimalScale / unitsPerOne).log2 + 1) * 309 / 1024 + 1)

/-! ## 3. Positional digits -/

/-- The digits of `n / 10^places` after the point, up to the last one that is not zero. -/
def fractionDigits : Nat → Nat → Text
  | 0, _ => []
  | places + 1, n =>
    if n = 0 then []
    else Nat.digitChar (n / 10 ^ places) :: fractionDigits places (n % 10 ^ places)

/-- A decimal in steps of `10^-324` in positional form. -/
def positional (d : Nat) : Text :=
  let fraction := fractionDigits decimalPlaces (d % decimalScale)
  Nat.toDigits 10 (d / decimalScale) ++ (if fraction.isEmpty then [] else '.' :: fraction)

/-- The written form of a magnitude. -/
def Magnitude.render (m : Magnitude) : Text := positional (shortestDecimal m.units)

/-- The written form of a number. -/
def Binary64.render : Binary64 → Text
  | .nan => ['N', 'a', 'N']
  | .infinite s => if s then ['-', 'i', 'n', 'f'] else ['i', 'n', 'f']
  | .finite s m => if s then '-' :: m.render else m.render

end Abacus
