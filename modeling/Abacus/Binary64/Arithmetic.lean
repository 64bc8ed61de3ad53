/-
# Arithmetic on binary64 numbers

Each operation on finite numbers computes its exact result as a quotient of integers in units and
rounds once.  With `x` and `y` for the signed counts of the operands and `2^1074` units to the one:

    x + y            (x + y) / 1
    x * y            (x * y) / 2^1074
    x / y            (x * 2^1074) / y
    x * y + z        (x * y + z * 2^1074) / 2^1074
    x rem y          x mod y, with the sign of x; always exact

What is left is the IEEE 754 table for zeros, infinities and NaN: an exact sum of zero is positive
unless both terms are negative, products and quotients multiply the signs, and the forms that have
no limit (`inf - inf`, `0 * inf`, `0 / 0`, `inf / inf`, remainder of an infinity or by zero) are NaN.
-/
import Abacus.Binary64.Rounding

namespace Abacus
namespace Binary64

/-! ## 1. Sums -/

/-- The rounded sum. -/
def add : Binary64 → Binary64 → Binary64
  | nan, _ => nan
  | _, nan => nan
  | infinite s, infinite t => if s = t then infinite s else nan
  | infinite s, finite _ _ => infinite s
  | finite _ _, infinite t => infinite t
  | finite s m, finite t n => roundSigned (s && t) (signedUnits s m + signedUnits t n) 1

/-- The rounded difference. -/
def sub (x y : Binary64) : Binary64 := add x (neg y)

/-! ## 2. Products and quotients -/

/-- The rounded product. -/
def mul : Binary64 → Binary64 → Binary64
  | nan, _ => nan
  | _, nan => nan
  | infinite s, infinite t => infinite (s != t)
  | infinite s, finite t n => if n.units = 0 then nan else infinite (s != t)
  | finite s m, infinite t => if m.units = 0 then nan else infinite (s != t)
  | finite s m, finite t n => round (s != t) (m.units * n.units) unitsPerOne

/-- The rounded quotient. -/
def div : Binary64 → Binary64 → Binary64
  | nan, _ => nan
  | _, nan => nan
  | infinite _, infinite _ => nan
  | infinite s, finite t _ => infinite (s != t)
  | finite s _, infinite t => finite (s != t) Magnitude.zero
  | finite s m, finite t n =>
    if n.units = 0 then
      if m.units = 0 then nan else infinite (s != t)
    else round (s != t) (m.units * unitsPerOne) n.units

/-- The remainder of the division truncated toward zero; it has the sign of the dividend. -/
def rem : Binary64 → Binary64 → Binary64
  | nan, _ => nan
  | _, nan => nan
  | infinite _, _ => nan
  | finite s m, infinite _ => finite s m
  | finite s m, finite _ n =>
    if n.units = 0 then nan else round s (m.units % n.units) 1

/-! ## 3. Fused multiplication and addition -/

/-- The product of the first two numbers plus the third, rounded once. -/
def fusedMulAdd : Binary64 → Binary64 → Binary64 → Binary64
  | finite s m, finite t n, finite u k =>
    roundSigned ((s != t) && u)
      (signedUnits s m * signedUnits t n + signedUnits u k * unitsPerOne) unitsPerOne
  | finite _ _, finite _ _, z => z
  | x, y, z => add (mul x y) z

instance : Add Binary64 := ⟨add⟩
instance : Sub Binary64 := ⟨sub⟩
instance : Mul Binary64 := ⟨mul⟩
instance : Div Binary64 := ⟨div⟩
instance : Mod Binary64 := ⟨rem⟩

/-! ## 4. Closeness -/

/-- Equal, or no further apart than the larger of an absolute tolerance and a relative tolerance
scaled by the larger magnitude. -/
def isClose (x y absolute relative : Binary64) : Bool :=
  equals x y ||
    atMost (abs (x - y)) (max absolute (relative * max (abs x) (abs y)))

/-! ## 5. Exact integers -/

/-- Integers up to this size are told apart by the numbers: `2^53 - 1`. -/
def maxExactInteger : Nat := 9007199254740991

/-- The integer that the number is, if it is one of at most `2^53 - 1` in size. -/
def exactInteger? : Binary64 → Option Int
  | finite s m =>
    if m.units % unitsPerOne = 0 ∧ m.units / unitsPerOne ≤ maxExactInteger then
      let n : Int := (m.units / unitsPerOne : Nat)
      some (if s then -n else n)
    else none
  | _ => none

end Binary64
end Abacus
