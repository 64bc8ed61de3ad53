/-
# Arithmetic of integer fractions is exact

A fraction whose parts stand for integers, `q.HasParts a b`, stands for the rational number `a/b`.  The
five operators on rational numbers are `exactly`, where the remainder is that of the division truncated
toward zero, and the operators on fractions give a fraction for that rational number as long as the
products of the parts are at most `2^53` in size: then every product, fused sum and remainder on the way
is an integer that is a number.

For the remainder, `a/b` and `c/d` are brought over the common denominator `bd`, which may be negative.
The truncated quotient does not depend on that: `(a/b) / (c/d)` is `ad/cb` (`truncated_div`), so the
numerator `ad - cb * trunc (ad/cb)` is the truncated remainder of the cross products
(`exactly_mod`), which is what the remainder of two numbers is.

Main statement: `applyFractions_exact`.
-/
import Mathlib.Data.Rat.Floor
import Mathlib.Tactic.FieldSimp
import Abacus.Proofs.Binary64.Integers
import Abacus.Proofs.Fraction.Operations

namespace Abacus

open Binary64 Value

/-! ## 1. Operators on rational numbers -/

/-- The integer part of a rational number, toward zero. -/
def truncated (v : ℚ) : Int := if v < 0 then ⌈v⌉ else ⌊v⌋

/-- An operator on rational numbers.  The remainder is what a multiple of the divisor leaves, and the
factor is the quotient truncated toward zero. -/
def exactly (op : Operator) (v w : ℚ) : ℚ :=
  match op with
  | .add => v + w
  | .sub => v - w
  | .mul => v * w
  | .div => v / w
  | .mod => v - w * truncated (v / w)

/-- Truncating toward zero commutes with the sign. -/
theorem truncated_neg (v : ℚ) : truncated (-v) = -truncated v := by
  unfold truncated
  rcases lt_trichotomy v 0 with hneg | rfl | hpos
  · rw [if_neg (by linarith), if_pos hneg, Int.floor_neg]
  · simp
  · rw [if_pos (by linarith), if_neg (by linarith), Int.ceil_neg]

theorem truncated_natCast_div (n d : Nat) : truncated ((n : ℚ) / d) = (n : Int).tdiv d := by
  rw [truncated, if_neg (not_lt.mpr (by positivity)), Rat.floor_natCast_div_natCast,
    Int.tdiv_eq_ediv_of_nonneg (Int.natCast_nonneg n)]

/-- The truncated quotient of two integers. -/
theorem truncated_div (n d : Int) : truncated ((n : ℚ) / d) = n.tdiv d := by
  obtain ⟨k, rfl | rfl⟩ := n.eq_nat_or_neg <;> obtain ⟨l, rfl | rfl⟩ := d.eq_nat_or_neg
  · exact truncated_natCast_div k l
  · rw [Int.cast_neg, div_neg, truncated_neg, Int.tdiv_neg]
    exact congrArg Neg.neg (truncated_natCast_div k l)
  · rw [Int.cast_neg, neg_div, truncated_neg, Int.neg_tdiv]
    exact congrArg Neg.neg (truncated_natCast_div k l)
  · rw [Int.cast_neg, Int.cast_neg, neg_div_neg_eq, Int.tdiv_neg, Int.neg_tdiv, Int.neg_neg]
    exact truncated_natCast_div k l

section Exact

variable {a b c d : Int}

theorem exactly_add (hb : b ≠ 0) (hd : d ≠ 0) :
    ((a * d + c * b : Int) : ℚ) / (b * d : Int) = exactly .add (a / b) (c / d) := by
  have hb' : (b : ℚ) ≠ 0 := Int.cast_ne_zero.mpr hb
  have hd' : (d : ℚ) ≠ 0 := Int.cast_ne_zero.mpr hd
  rw [exactly]
  push_cast
  field_simp

theorem exactly_sub (hb : b ≠ 0) (hd : d ≠ 0) :
    ((a * d + -(c * b) : Int) : ℚ) / (b * d : Int) = exactly .sub (a / b) (c / d) := by
  have hb' : (b : ℚ) ≠ 0 := Int.cast_ne_zero.mpr hb
  have hd' : (d : ℚ) ≠ 0 := Int.cast_ne_zero.mpr hd
  rw [exactly]
  push_cast
  field_simp
  ring

theorem exactly_mul : ((a * c : Int) : ℚ) / (b * d : Int) = exactly .mul (a / b) (c / d) := by
  rw [exactly, Int.cast_mul, Int.cast_mul, div_mul_div_comm]

theorem exactly_div : ((a * d : Int) : ℚ) / (b * c : Int) = exactly .div (a / b) (c / d) := by
  rw [exactly, Int.cast_mul, Int.cast_mul, div_div_div_eq]

/-- The remainder of fractions is the remainder of their cross products. -/
theorem exactly_mod (hb : b ≠ 0) (hd : d ≠ 0) :
    (((a * d).tmod (c * b) : Int) : ℚ) / (b * d : Int) = exactly .mod (a / b) (c / d) := by
  have hb' : (b : ℚ) ≠ 0 := Int.cast_ne_zero.mpr hb
  have hd' : (d : ℚ) ≠ 0 := Int.cast_ne_zero.mpr hd
  have hquotient : (a : ℚ) / b / (c / d) = (a * d : Int) / (c * b : Int) := by
    rw [div_div_div_eq, Int.cast_mul, Int.cast_mul, mul_comm (b : ℚ)]
  rw [exactly, hquotient, truncated_div, Int.tmod_def]
  push_cast
  field_simp

end Exact

/-! ## 2. Operators on fractions of integers -/

/-- The parts stand for integers. -/
structure Fraction.HasParts (q : Fraction) (a b : Int) : Prop where
  numerator : q.numerator.IsInteger a
  denominator : q.denominator.IsInteger b

/-- The fraction stands for the rational number, as a quotient of integers. -/
def Fraction.IsQuotient (f : Fraction) (v : ℚ) : Prop :=
  ∃ n m : Int, f.HasParts n m ∧ m ≠ 0 ∧ (n : ℚ) / m = v

section Operators

variable {q r : Fraction} {a b c d : Int}

theorem Fraction.HasParts.ne_zero (h : q.HasParts a b) : b ≠ 0 := by
  rw [Ne, ← h.denominator.isZero_iff, q.nonzero]
  exact Bool.false_ne_true

/-- A fraction is made of numbers for integers unless the denominator is zero. -/
theorem isQuotient_make {x y : Binary64} {n m : Int} {v : ℚ} (hx : x.IsInteger n)
    (hy : y.IsInteger m) (hm : m ≠ 0) (hv : (n : ℚ) / m = v) (p : Position) :
    ∃ f, Fraction.make x y p = .ok f ∧ f.IsQuotient v := by
  exact ⟨_, Fraction.make_ok (hy.isZero_eq_false hm) p, n, m, ⟨hx, hy⟩, hm, hv⟩

/-- The sizes up to which the arithmetic of `a/b` and `c/d` is exact. -/
structure WithinExact (a b c d : Int) : Prop where
  cross : (a * d).natAbs + (c * b).natAbs ≤ 2 ^ (53 : Nat)
  denominators : (b * d).natAbs ≤ 2 ^ (53 : Nat)
  quotient : (b * c).natAbs ≤ 2 ^ (53 : Nat)
  numerators : (a * c).natAbs ≤ 2 ^ (53 : Nat)

/-- An operator that does not divide by zero makes the fraction of the exact result. -/
theorem exists_applyFractions (hq : q.HasParts a b) (hr : r.HasParts c d) (h : WithinExact a b c d)
    {op : Operator} (hop : c = 0 → op ≠ .div ∧ op ≠ .mod) (p : Position) :
    ∃ f, applyFractions op q r p = .ok f ∧ f.IsQuotient (exactly op (a / b) (c / d)) := by
  have hb := hq.ne_zero
  have hd := hr.ne_zero
  have hcross := h.cross
  have hleft : (a * d).natAbs ≤ 2 ^ (53 : Nat) := by omega
  have hright : (c * b).natAbs ≤ 2 ^ (53 : Nat) := by omega
  have had := hq.numerator.mul hr.denominator hleft
  have hcb := hr.numerator.mul hq.denominator hright
  have hbd := hq.denominator.mul hr.denominator h.denominators
  have hbd' : b * d ≠ 0 := Int.mul_ne_zero hb hd
  cases op with
  | add =>
    have hsum := hq.numerator.fusedMulAdd hr.denominator hcb (by omega)
    exact isQuotient_make hsum hbd hbd' (exactly_add hb hd) p
  | sub =>
    have hsum := hq.numerator.fusedMulAdd hr.denominator hcb.neg (by omega)
    exact isQuotient_make hsum hbd hbd' (exactly_sub hb hd) p
  | mul =>
    have hac := hq.numerator.mul hr.numerator h.numerators
    exact isQuotient_make hac hbd hbd' exactly_mul p
  | div =>
    have hc : c ≠ 0 := fun hc => (hop hc).1 rfl
    have hbc := hq.denominator.mul hr.numerator h.quotient
    have happly : applyFractions .div q r p
        = Fraction.make (q.numerator * r.denominator) (q.denominator * r.numerator) p :=
      if_neg (fun hzero => hc (hr.numerator.isZero_iff.mp hzero))
    rw [happly]
    exact isQuotient_make had hbc (Int.mul_ne_zero hb hc) exactly_div p
  | mod =>
    have hc : c ≠ 0 := fun hc => (hop hc).2 rfl
    have hle : ((a * d).tmod (c * b)).natAbs ≤ 2 ^ (53 : Nat) := by
      rw [Int.natAbs_tmod]
      exact (Nat.mod_le _ _).trans hleft
    have hrem := had.rem hcb (Int.mul_ne_zero hc hb) hle
    rw [applyFractions_mod (hr.numerator.isZero_eq_false hc)]
    exact isQuotient_make hrem hbd hbd' (exactly_mod hb hd) p

/-- **Fractions of integers are computed exactly** while the products of their parts are at most `2^53` in
size: an operator fails exactly for a division or a remainder by zero, and otherwise makes a fraction of
integers for the exact result. -/
theorem applyFractions_exact (hq : q.HasParts a b) (hr : r.HasParts c d) (h : WithinExact a b c d)
    (op : Operator) (p : Position) :
    (∀ e, applyFractions op q r p = .error e ↔ c = 0 ∧
        ((op = .div ∧ e = ⟨.divisionByZero, p⟩) ∨ (op = .mod ∧ e = ⟨.moduloByZero, p⟩))) ∧
      (¬ (c = 0 ∧ (op = .div ∨ op = .mod)) →
        ∃ f, applyFractions op q r p = .ok f ∧ f.IsQuotient (exactly op (a / b) (c / d))) := by
  by_cases hfails : c = 0 ∧ (op = .div ∨ op = .mod)
  · obtain ⟨hc, hop⟩ := hfails
    refine ⟨?_, fun hnot => absurd ⟨hc, hop⟩ hnot⟩
    intro e
    have hzero := hr.numerator.isZero_iff.mpr hc
    rcases hop with rfl | rfl
    · rw [applyFractions_of_isZero hzero rfl]
      simp [hc, eq_comm]
    · rw [applyFractions_of_isZero hzero rfl]
      simp [hc, eq_comm]
  · have hop : c = 0 → op ≠ .div ∧ op ≠ .mod := fun hc => not_or.mp (fun h => hfails ⟨hc, h⟩)
    obtain ⟨f, hf, hvalue⟩ := exists_applyFractions hq hr h hop p
    refine ⟨?_, fun _ => ⟨f, hf, hvalue⟩⟩
    intro e
    rw [hf]
    refine iff_of_false (by rintro ⟨⟩) ?_
    rintro ⟨hc, ⟨hdiv, -⟩ | ⟨hmod, -⟩⟩
    · exact (hop hc).1 hdiv
    · exact (hop hc).2 hmod

end Operators

namespace Example

/-- Seven over minus two. -/
def sevenHalvesBelow : Fraction := ⟨.ofInt 7, .ofInt (-2), by decide +kernel⟩

/-- Four elevenths. -/
def fourElevenths : Fraction := ⟨.ofInt 4, .ofInt 11, by decide +kernel⟩

/-- Seven over minus two by four elevenths leaves minus five over twenty-two: the quotient is truncated
to minus nine. -/
theorem applyFractions_exact_remainder :
    sevenHalvesBelow.HasParts 7 (-2) ∧ fourElevenths.HasParts 4 11 ∧ WithinExact 7 (-2) 4 11 ∧
      (∀ e, applyFractions .mod sevenHalvesBelow fourElevenths ⟨1, 1⟩ ≠ .error e) ∧
      ∃ f, applyFractions .mod sevenHalvesBelow fourElevenths ⟨1, 1⟩ = .ok f ∧ f.IsQuotient (-5 / 22) := by
  have hhalves : sevenHalvesBelow.HasParts 7 (-2) :=
    ⟨isInteger_of_exactInteger? (by decide +kernel), isInteger_of_exactInteger? (by decide +kernel)⟩
  have helevenths : fourElevenths.HasParts 4 11 :=
    ⟨isInteger_of_exactInteger? (by decide +kernel), isInteger_of_exactInteger? (by decide +kernel)⟩
  have hwithin : WithinExact 7 (-2) 4 11 := by
    constructor <;> decide
  obtain ⟨hfails, hvalue⟩ := applyFractions_exact hhalves helevenths hwithin .mod ⟨1, 1⟩
  have hremainder : exactly .mod ((7 : Int) / (-2 : Int)) ((4 : Int) / (11 : Int)) = -5 / 22 := by
    have hcross : (7 * 11 : Int).tmod (4 * -2) = 5 := by decide
    rw [← exactly_mod (by decide) (by decide), hcross]
    norm_num
  refine ⟨hhalves, helevenths, hwithin, ?_, ?_⟩
  · intro e he
    exact absurd ((hfails e).mp he).1 (by decide)
  · rw [← hremainder]
    exact hvalue (by decide)

end Example

end Abacus
