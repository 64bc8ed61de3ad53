/-
# Fractions of integers: lowest terms and equality

A fraction of integers stands for a rational number, and lowest terms are the numerator and the
denominator of that rational number (`reduced_eq`): the sign is moved to the numerator first, and dividing
both parts by what Euclid's loop finds, their greatest common divisor, leaves coprime parts.  All of this
is integer arithmetic, so two fractions have the same lowest terms exactly if they stand for the same
rational number, which is to say that their cross products are the same integer.

Equality multiplies crosswise in numbers.  The cross products of integers of 53 binary digits have up to
106, and two different ones can round to the same number.  So fractions with the same lowest terms are
equal, and equal fractions have the same lowest terms unless their cross products are two integers that
round to one number.  Up to `2^53` no two integers do.

Main statement: `equals_iff_reduced`.
-/
import Abacus.Fraction
import Abacus.Proofs.Binary64.Nearest
import Abacus.Proofs.Value.Checked

namespace Abacus

open Binary64

/-! ## 1. Dividing by the common divisor -/

/-- The numerator and the denominator of a quotient of integers. -/
theorem num_den_div_gcd {n d : Int} (hd : 0 < d) :
    ((n : ℚ) / d).num = n.tdiv (Nat.gcd n.natAbs d.natAbs) ∧
      (((n : ℚ) / d).den : Int) = d.tdiv (Nat.gcd n.natAbs d.natAbs) := by
  have hgcd : 0 < Nat.gcd n.natAbs d.natAbs := Nat.gcd_pos_of_pos_right _ (by omega)
  obtain ⟨a, ha⟩ := Int.ofNat_dvd_left.mpr (Nat.gcd_dvd_left n.natAbs d.natAbs)
  obtain ⟨b, hb⟩ := Int.ofNat_dvd_left.mpr (Nat.gcd_dvd_right n.natAbs d.natAbs)
  generalize hg : Nat.gcd n.natAbs d.natAbs = g at *
  have hgpos : (0 : Int) < g := Int.natCast_pos.mpr hgcd
  have hbpos : 0 < b := by
    rw [hb] at hd
    exact pos_of_mul_pos_right hd hgpos.le
  have hcoprime : Nat.Coprime a.natAbs b.natAbs := by
    rw [ha, hb, Int.natAbs_mul, Int.natAbs_mul, Int.natAbs_natCast, Nat.gcd_mul_left] at hg
    exact Nat.eq_of_mul_eq_mul_left hgcd (by rw [hg, Nat.mul_one])
  have hvalue : (n : ℚ) / d = a / b := by
    have hgne : ((g : Int) : ℚ) ≠ 0 := Int.cast_ne_zero.mpr hgpos.ne'
    rw [ha, hb, Int.cast_mul, Int.cast_mul, mul_div_mul_left _ _ hgne]
  rw [hvalue, Rat.num_div_eq_of_coprime hbpos hcoprime, Rat.den_div_eq_of_coprime hbpos hcoprime,
    ha, hb, Int.mul_tdiv_cancel_left _ hgpos.ne', Int.mul_tdiv_cancel_left _ hgpos.ne']
  exact ⟨rfl, rfl⟩

namespace Fraction

/-! ## 2. Lowest terms -/

/-- The parts are integers of at most `2^53 - 1` in size. -/
structure OfIntegers (q : Fraction) (n d : Int) : Prop where
  numerator : q.numerator.exactInteger? = some n
  denominator : q.denominator.exactInteger? = some d

section LowestTerms

variable {q r : Fraction} {n d n' d' : Int}

theorem ext_parts (hnum : q.numerator = r.numerator) (hden : q.denominator = r.denominator) :
    q = r := by
  cases q
  cases r
  cases hnum
  cases hden
  rfl

theorem OfIntegers.ne_zero (h : q.OfIntegers n d) : d ≠ 0 :=
  exactInteger?_ne_zero q.nonzero h.denominator

/-- Moving the sign leaves integers, a positive denominator and the quotient. -/
theorem OfIntegers.signNormalized (h : q.OfIntegers n d) :
    ∃ m e, q.signNormalized.OfIntegers m e ∧ 0 < e ∧ (m : ℚ) / e = n / d := by
  obtain ⟨hfinite, hvalue, -⟩ := of_exactInteger? h.denominator
  have hnegative : q.denominator.lessThan .zero = true ↔ d < 0 := by
    rw [lessThan_zero_iff hfinite, hvalue, Int.cast_lt_zero]
  unfold Fraction.signNormalized
  by_cases hneg : d < 0
  · rw [if_pos (hnegative.mpr hneg)]
    refine ⟨-n, -d, ⟨?_, ?_⟩, by omega, ?_⟩
    · rw [exactInteger?_neg, h.numerator]
      rfl
    · rw [exactInteger?_neg, h.denominator]
      rfl
    · rw [Int.cast_neg, Int.cast_neg, neg_div_neg_eq]
  · rw [if_neg (fun hlt => hneg (hnegative.mp hlt))]
    have hne := h.ne_zero
    exact ⟨n, d, h, by omega, rfl⟩

/-- **Lowest terms** are the numerator and the denominator of the rational number. -/
theorem reduced_eq (h : q.OfIntegers n d) :
    q.reduced.numerator = ofInt ((n : ℚ) / d).num ∧
      q.reduced.denominator = ofInt ((n : ℚ) / d).den := by
  obtain ⟨m, e, hnormal, hpos, hquotient⟩ := h.signNormalized
  obtain ⟨hnum, hden⟩ := num_den_div_gcd (n := m) hpos
  rw [← hquotient, hnum, hden]
  unfold reduced
  simp only [hnormal.numerator, hnormal.denominator, commonDivisor_eq_gcd]
  rw [dif_pos hpos.ne']
  exact ⟨rfl, rfl⟩

/-- Lowest terms are no larger than the parts. -/
theorem OfIntegers.natAbs_num_den_le (h : q.OfIntegers n d) :
    ((n : ℚ) / d).num.natAbs ≤ maxExactInteger ∧
      (((n : ℚ) / d).den : Int).natAbs ≤ maxExactInteger := by
  obtain ⟨m, e, hnormal, hpos, hquotient⟩ := h.signNormalized
  obtain ⟨hnum, hden⟩ := num_den_div_gcd (n := m) hpos
  have hle : ∀ {x : Binary64} {k : Int} (g : Nat), x.exactInteger? = some k →
      (k.tdiv g).natAbs ≤ maxExactInteger := by
    intro x k g hk
    rw [Int.natAbs_tdiv, Int.natAbs_natCast]
    exact (Nat.div_le_self _ _).trans (of_exactInteger? hk).2.2
  rw [← hquotient, hnum, hden]
  exact ⟨hle _ hnormal.numerator, hle _ hnormal.denominator⟩

/-- Fractions of integers have the same lowest terms exactly if their cross products are the same. -/
theorem reduced_eq_reduced_iff (hq : q.OfIntegers n d) (hr : r.OfIntegers n' d') :
    q.reduced = r.reduced ↔ n * d' = n' * d := by
  obtain ⟨hqnum, hqden⟩ := reduced_eq hq
  obtain ⟨hrnum, hrden⟩ := reduced_eq hr
  obtain ⟨hqn, hqd⟩ := hq.natAbs_num_den_le
  obtain ⟨hrn, hrd⟩ := hr.natAbs_num_den_le
  have hcross : (n : ℚ) / d = n' / d' ↔ n * d' = n' * d := by
    rw [div_eq_div_iff (Int.cast_ne_zero.mpr hq.ne_zero) (Int.cast_ne_zero.mpr hr.ne_zero),
      ← Int.cast_mul, ← Int.cast_mul, Int.cast_inj]
  rw [← hcross]
  constructor
  · intro h
    have hnum : ((n : ℚ) / d).num = ((n' : ℚ) / d').num := by
      rw [← ofInt_inj (le_two_pow hqn) (le_two_pow hrn), ← hqnum, ← hrnum, h]
    have hden : (((n : ℚ) / d).den : Int) = ((n' : ℚ) / d').den := by
      rw [← ofInt_inj (le_two_pow hqd) (le_two_pow hrd), ← hqden, ← hrden, h]
    exact Rat.ext hnum (Int.natCast_inj.mp hden)
  · intro h
    exact ext_parts (by rw [hqnum, hrnum, h]) (by rw [hqden, hrden, h])

/-! ## 3. Equality -/

theorem equals_iff_ofInt_mul (hq : q.OfIntegers n d) (hr : r.OfIntegers n' d') :
    q.equals r = true ↔ ofInt (n * d') = ofInt (n' * d) := by
  obtain ⟨hqn, hqn', -⟩ := of_exactInteger? hq.numerator
  obtain ⟨hqd, hqd', -⟩ := of_exactInteger? hq.denominator
  obtain ⟨hrn, hrn', -⟩ := of_exactInteger? hr.numerator
  obtain ⟨hrd, hrd', -⟩ := of_exactInteger? hr.denominator
  rw [equals, mul_eq hqn hrd, mul_eq hrn hqd, hqn', hqd', hrn', hrd', ← Int.cast_mul, ← Int.cast_mul,
    equals_nearest_intCast]

/-- **Equality and lowest terms**: fractions of integers are equal if they have the same lowest terms, or
if their cross products differ but round to the same number, which products up to `2^53` never do. -/
theorem equals_iff_reduced (hq : q.OfIntegers n d) (hr : r.OfIntegers n' d') :
    (q.equals r = true ↔ q.reduced = r.reduced ∨
        (n * d' ≠ n' * d ∧ ofInt (n * d') = ofInt (n' * d))) ∧
      ((n * d').natAbs ≤ 2 ^ (53 : Nat) → (n' * d).natAbs ≤ 2 ^ (53 : Nat) →
        (q.equals r = true ↔ q.reduced = r.reduced)) := by
  rw [equals_iff_ofInt_mul hq hr, reduced_eq_reduced_iff hq hr]
  constructor
  · by_cases heq : n * d' = n' * d
    · exact iff_of_true (by rw [heq]) (Or.inl heq)
    · rw [or_iff_right heq, and_iff_right heq]
  · intro hleft hright
    exact ofInt_inj hleft hright

end LowestTerms

namespace Example

/-- One seventh. -/
def seventh : Fraction := ⟨.one, .ofInt 7, by decide +kernel⟩

/-- Two fourteenths. -/
def twoFourteenths : Fraction := ⟨.ofInt 2, .ofInt 14, by decide +kernel⟩

theorem equals_iff_reduced_seventh : seventh.OfIntegers 1 7 ∧ twoFourteenths.OfIntegers 2 14 ∧
    (seventh.equals twoFourteenths = true ↔ seventh.reduced = twoFourteenths.reduced ∨
      ((1 * 14 : Int) ≠ 2 * 7 ∧ ofInt (1 * 14) = ofInt (2 * 7))) ∧
    (seventh.equals twoFourteenths = true ↔ seventh.reduced = twoFourteenths.reduced) := by
  have hseventh : seventh.OfIntegers 1 7 := by
    constructor <;> decide +kernel
  have hfourteenths : twoFourteenths.OfIntegers 2 14 := by
    constructor <;> decide +kernel
  obtain ⟨hgeneral, hsmall⟩ := equals_iff_reduced hseventh hfourteenths
  exact ⟨hseventh, hfourteenths, hgeneral, hsmall (by decide) (by decide)⟩

/-- The largest integer over the one below it. -/
def largest : Fraction := ⟨.ofInt 9007199254740991, .ofInt 9007199254740990, by decide +kernel⟩

/-- The same, one smaller in both parts. -/
def nextLargest : Fraction := ⟨.ofInt 9007199254740990, .ofInt 9007199254740989, by decide +kernel⟩

/-- Equal fractions in different lowest terms: the cross products differ by one. -/
theorem large_fractions_equal :
    largest.OfIntegers 9007199254740991 9007199254740990 ∧
      nextLargest.OfIntegers 9007199254740990 9007199254740989 ∧
      largest.equals nextLargest = true ∧
      largest.reduced.numerator ≠ nextLargest.reduced.numerator ∧
      largest.reduced.denominator ≠ nextLargest.reduced.denominator := by
  refine ⟨?_, ?_, by decide +kernel, by decide +kernel, by decide +kernel⟩
  · constructor <;> decide +kernel
  · constructor <;> decide +kernel

end Example

end Fraction
end Abacus
