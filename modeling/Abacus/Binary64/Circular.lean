/-
# Sine and cosine

The sine and the cosine of a finite number are the exact real value rounded once.  The exact value
is replaced by fixed-point arithmetic with 2500 fractional bits:

    x  =  k * (pi / 2) + r,    0 <= r < pi / 2
    sin r = r - r^3/3! + r^5/5! - ...          cos r = 1 - r^2/2! + r^4/4! - ...

and the quarter turn `k mod 4` chooses between them and the sign.  `pi` comes from Machin's formula
`pi / 4 = 4 arctan (1/5) - arctan (1/239)`.  The largest arguments have 1024 integer bits, so after
the reduction some 1460 correct fractional bits remain; the value at an argument other than zero is
transcendental, hence never half way between two numbers, and no argument comes near enough to half
way to need as many bits.
-/
import Abacus.Binary64.Rounding

namespace Abacus
namespace Circular

/-! ## 1. Fixed-point series -/

/-- One, in fixed-point form. -/
def scale : Nat := 1 <<< 2500

/-- The series `power/odd - power/(square*(odd+2)) + ...` of the inverse tangent. -/
def arctanSeries (square : Nat) : Nat → Nat → Nat → Int
  | 0, _, _ => 0
  | terms + 1, power, odd =>
    ((power / odd : Nat) : Int) - arctanSeries square terms (power / square) (odd + 2)

/-- The inverse tangent of `1/k`, for `k` at least five. -/
def arctanInverse (k : Nat) : Int := arctanSeries (k * k) 600 (scale / k) 1

/-- Half of pi. -/
def halfPi : Int := 8 * arctanInverse 5 - 2 * arctanInverse 239

/-- The alternating series of the sine and the cosine: each term is the one before it times
`r^2 / ((n + 1) * (n + 2))`. -/
def turnSeries (square : Int) : Nat → Int → Nat → Int
  | 0, _, _ => 0
  | terms + 1, term, n =>
    if term = 0 then 0
    else term - turnSeries square terms (term * square / scale / ((n + 1) * (n + 2))) (n + 2)

/-- The sine of a fixed-point number below half of pi. -/
def sinSeries (r : Int) : Int := turnSeries (r * r / scale) 300 r 1

/-- The cosine of a fixed-point number below half of pi. -/
def cosSeries (r : Int) : Int := turnSeries (r * r / scale) 300 scale 0

/-! ## 2. Quarter turns -/

/-- The fixed-point sine at `r` after `quarters` quarter turns. -/
def sinAfter (quarters r : Int) : Int :=
  match (quarters % 4).toNat with
  | 0 => sinSeries r
  | 1 => cosSeries r
  | 2 => -sinSeries r
  | _ => -cosSeries r

/-- The fixed-point value of a magnitude. -/
def ofMagnitude (m : Magnitude) : Int := m.units * scale / unitsPerOne

/-- The sine of a magnitude plus a number of quarter turns, rounded. -/
def sinOfMagnitude (quarters : Int) (m : Magnitude) : Binary64 :=
  let x := ofMagnitude m
  Binary64.roundSigned false (sinAfter (x / halfPi + quarters) (x % halfPi) * unitsPerOne) scale

end Circular

namespace Binary64

/-! ## 3. The functions -/

/-- The sine, an odd function. -/
def sin : Binary64 → Binary64
  | finite s m => if s then neg (Circular.sinOfMagnitude 0 m) else Circular.sinOfMagnitude 0 m
  | _ => nan

/-- The cosine, an even function: the sine a quarter turn later. -/
def cos : Binary64 → Binary64
  | finite _ m => Circular.sinOfMagnitude 1 m
  | _ => nan

theorem sin_neg (x : Binary64) : sin (neg x) = neg (sin x) := by
  rcases x with _ | s | ⟨s, m⟩
  · rfl
  · rfl
  · cases s <;> simp [sin]

theorem cos_neg (x : Binary64) : cos (neg x) = cos x := by
  cases x <;> rfl

end Binary64
end Abacus
