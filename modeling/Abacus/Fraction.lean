/-
# Fractions

A fraction is a numerator over a denominator that is not zero.  Both are binary64 numbers, so
neither has to be an integer.  Arithmetic does not reduce fractions: `2/4` and `1/2` are different
fractions, and `equals` multiplies crosswise to compare what they stand for.

`reduced` divides by the greatest common divisor when both parts are integers of at most `2^53 - 1`
in size, and otherwise only moves the sign to the numerator.  The divisor is found by Euclid's loop.

Main statement: `commonDivisor_eq_gcd`.
-/
import Abacus.Binary64.Arithmetic
import Abacus.Binary64.Decimal
import Abacus.Error

namespace Abacus

/-- A numerator over a denominator other than zero. -/
structure Fraction where
  /-- What is divided. -/
  numerator : Binary64
  /-- What it is divided by. -/
  denominator : Binary64
  /-- The denominator is neither of the zeros. -/
  nonzero : denominator.isZero = false
  deriving DecidableEq

namespace Fraction

/-! ## 1. Making fractions -/

/-- The fraction of two numbers, unless the denominator is zero. -/
def make (numerator denominator : Binary64) (position : Position) : Except Error Fraction :=
  if h : denominator.isZero = false then .ok ⟨numerator, denominator, h⟩
  else .error ⟨.divisionByZero, position⟩

/-- A number over one. -/
def ofNumber (x : Binary64) : Fraction where
  numerator := x
  denominator := .one
  nonzero := by
    have h := unitsPerOne_pos
    simp only [Binary64.one, Magnitude.one, Binary64.isZero, beq_eq_false_iff_ne]
    omega

/-! ## 2. Reading fractions -/

/-- The quotient as a number. -/
def quotient (q : Fraction) : Binary64 := q.numerator / q.denominator

/-- Equality of crosswise products. -/
def equals (q r : Fraction) : Bool :=
  Binary64.equals (q.numerator * r.denominator) (r.numerator * q.denominator)

/-- The written form: both parts with a slash between them. -/
def render (q : Fraction) : Text := q.numerator.render ++ '/' :: q.denominator.render

/-! ## 3. Sign, steps and lowest terms -/

/-- The fraction with the sign of its numerator changed. -/
def negated (q : Fraction) : Fraction := ⟨-q.numerator, q.denominator, q.nonzero⟩

/-- The fraction plus a number, over the same denominator. -/
def shifted (q : Fraction) (delta : Binary64) : Fraction :=
  ⟨Binary64.fusedMulAdd delta q.denominator q.numerator, q.denominator, q.nonzero⟩

/-- The fraction with the sign of a negative denominator moved to the numerator. -/
def signNormalized (q : Fraction) : Fraction :=
  if q.denominator.lessThan .zero then
    ⟨-q.numerator, -q.denominator, by
      have h := q.nonzero
      rwa [← Binary64.isZero_neg] at h⟩
  else q

/-- The greatest common divisor by Euclid's loop: the divisor takes the place of the dividend and the
remainder that of the divisor, until there is no remainder. -/
def commonDivisor (a b : Nat) : Nat :=
  if b ≠ 0 then commonDivisor b (a % b) else a
termination_by b
decreasing_by exact Nat.mod_lt a (Nat.pos_of_ne_zero ‹b ≠ 0›)

/-- **Euclid's loop finds the greatest common divisor**, because no round changes it. -/
theorem commonDivisor_eq_gcd (a b : Nat) : commonDivisor a b = Nat.gcd a b := by
  induction a, b using commonDivisor.induct with
  | case1 a b hb ih => rw [commonDivisor, if_pos hb, ih, Nat.gcd_comm b, ← Nat.gcd_rec, Nat.gcd_comm]
  | case2 a b hb =>
    obtain rfl : b = 0 := Decidable.not_not.mp hb
    rw [commonDivisor, if_neg hb, Nat.gcd_zero_right]

/-- Dividing an integer other than zero by its common divisor with another leaves one other than
zero. -/
theorem tdiv_commonDivisor_ne_zero {n d : Int} (h : d ≠ 0) :
    d.tdiv (commonDivisor n.natAbs d.natAbs) ≠ 0 := by
  intro hz
  have hdvd : ((commonDivisor n.natAbs d.natAbs : Nat) : Int) ∣ d := by
    rw [commonDivisor_eq_gcd]
    exact Int.ofNat_dvd_left.mpr (Nat.gcd_dvd_right _ _)
  have hmul := Int.tdiv_mul_cancel hdvd
  rw [hz, Int.zero_mul] at hmul
  exact h hmul.symm

/-- The fraction in lowest terms with a denominator that is not negative. -/
def reduced (q : Fraction) : Fraction :=
  let normal := q.signNormalized
  match normal.numerator.exactInteger?, normal.denominator.exactInteger? with
  | some n, some d =>
    if h : d ≠ 0 then
      ⟨.ofInt (n.tdiv (commonDivisor n.natAbs d.natAbs)),
        .ofInt (d.tdiv (commonDivisor n.natAbs d.natAbs)),
        Binary64.isZero_ofInt (tdiv_commonDivisor_ne_zero h)⟩
    else normal
  | _, _ => normal

end Fraction
end Abacus
