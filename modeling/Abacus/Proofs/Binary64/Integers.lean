/-
# Arithmetic on integers is exact

A finite number can stand for an integer, `x.IsInteger n`.  Zero is the only integer with two numbers,
and from `2^53` on integers have gaps, so an operation on numbers for integers gives a number for the
integer that it should give only if that integer is small enough.  Up to `2^53` it always is: products
and fused sums are rounded once, and integers up to there are not changed by rounding
(`IsInteger.mul`, `IsInteger.fusedMulAdd`).  A remainder is never rounded, and it is the remainder of the
division truncated toward zero (`IsInteger.rem`).

`exactInteger?_eq_some_iff` says which integers `exactInteger?` finds.
-/
import Abacus.Proofs.Binary64.Nearest

namespace Abacus

namespace Binary64

/-- The number is finite and stands for the integer. -/
structure IsInteger (x : Binary64) (n : Int) : Prop where
  finite : x.isFinite = true
  value : x.toRat = n

section Integers

variable {x y z : Binary64} {n m k : Int}

/-! ## 1. Numbers for integers -/

theorem isInteger_nearest (s : Bool) (h : n.natAbs ≤ 2 ^ (53 : Nat)) : (nearest s n).IsInteger n := by
  by_cases hzero : n = 0
  · rw [hzero, Int.cast_zero, nearest_zero]
    exact ⟨rfl, by rw [toRat_of_isZero rfl, Int.cast_zero]⟩
  · rw [nearest_of_ne_zero (Int.cast_ne_zero.mpr hzero) s false]
    obtain ⟨hfinite, hvalue⟩ := toRat_ofInt h
    exact ⟨hfinite, hvalue⟩

theorem isInteger_ofInt (h : n.natAbs ≤ 2 ^ (53 : Nat)) : (ofInt n).IsInteger n :=
  isInteger_nearest false h

theorem IsInteger.neg (hx : x.IsInteger n) : (-x).IsInteger (-n) where
  finite := (isFinite_neg x).trans hx.finite
  value := by rw [toRat_neg, hx.value, Int.cast_neg]

theorem IsInteger.unique (hx : x.IsInteger n) (hx' : x.IsInteger m) : n = m :=
  Int.cast_injective (α := ℚ) (hx.value.symm.trans hx'.value)

/-- A number for an integer has as many ones as the integer, and its sign unless it is zero. -/
theorem IsInteger.exists_units (hx : x.IsInteger n) :
    ∃ s u, x = .finite s u ∧ u.units = n.natAbs * unitsPerOne ∧ (n ≠ 0 → s = decide (n < 0)) := by
  obtain ⟨s, u, rfl⟩ := exists_finite hx.finite
  have hsigned : signedUnits s u = n * unitsPerOne := by
    have hvalue := hx.value
    rw [toRat, div_eq_iff unitsPerOne_cast_pos.ne'] at hvalue
    exact_mod_cast hvalue
  have hpos : (0 : Int) < unitsPerOne := Int.natCast_pos.mpr unitsPerOne_pos
  have habs : (signedUnits s u).natAbs = u.units := by
    cases s <;> simp [signedUnits]
  refine ⟨s, u, rfl, ?_, ?_⟩
  · rw [← habs, hsigned, Int.natAbs_mul, Int.natAbs_natCast]
  · intro hne
    cases s with
    | false =>
      have hnonneg : 0 ≤ n * (unitsPerOne : Int) := hsigned ▸ Int.natCast_nonneg u.units
      exact (decide_eq_false (not_lt.mpr (nonneg_of_mul_nonneg_left hnonneg hpos))).symm
    | true =>
      have hnonpos : n * (unitsPerOne : Int) ≤ 0 :=
        hsigned ▸ neg_nonpos.mpr (Int.natCast_nonneg u.units)
      exact (decide_eq_true (lt_of_le_of_ne (nonpos_of_mul_nonpos_left hnonpos hpos) hne)).symm

theorem IsInteger.isZero_iff (hx : x.IsInteger n) : x.isZero = true ↔ n = 0 := by
  obtain ⟨s, u, rfl, hunits, -⟩ := hx.exists_units
  rw [isZero, beq_iff_eq, hunits, Nat.mul_eq_zero, or_iff_left unitsPerOne_pos.ne', Int.natAbs_eq_zero]

theorem IsInteger.isZero_eq_false (hx : x.IsInteger n) (hn : n ≠ 0) : x.isZero = false := by
  rwa [Ne, ← hx.isZero_iff, Bool.not_eq_true] at hn

/-- **What `exactInteger?` finds** are the integers of at most `2^53 - 1` in size. -/
theorem exactInteger?_eq_some_iff :
    x.exactInteger? = some n ↔ x.IsInteger n ∧ n.natAbs ≤ maxExactInteger := by
  constructor
  · intro h
    obtain ⟨hfinite, hvalue, hle⟩ := of_exactInteger? h
    exact ⟨⟨hfinite, hvalue⟩, hle⟩
  · rintro ⟨hx, hle⟩
    obtain ⟨s, u, rfl, hunits, hsign⟩ := hx.exists_units
    rw [exactInteger?_finite, hunits, Nat.mul_mod_left, Nat.mul_div_cancel _ unitsPerOne_pos,
      if_pos ⟨rfl, hle⟩]
    by_cases hzero : n = 0
    · rw [hzero]
      cases s <;> rfl
    · rw [hsign hzero]
      by_cases hneg : n < 0
      · rw [if_pos (decide_eq_true hneg), Int.ofNat_natAbs_of_nonpos hneg.le, Int.neg_neg]
      · rw [if_neg (by simpa using hneg), Int.natAbs_of_nonneg (by omega)]

theorem isInteger_of_exactInteger? (h : x.exactInteger? = some n) : x.IsInteger n :=
  (exactInteger?_eq_some_iff.mp h).1

/-! ## 2. Operations -/

/-- Products of integers are exact up to `2^53`. -/
theorem IsInteger.mul (hx : x.IsInteger n) (hy : y.IsInteger m) (h : (n * m).natAbs ≤ 2 ^ (53 : Nat)) :
    (x * y).IsInteger (n * m) := by
  rw [mul_eq hx.finite hy.finite, hx.value, hy.value, ← Int.cast_mul]
  exact isInteger_nearest _ h

/-- Fused sums of integers are exact up to `2^53`, whatever the size of the product. -/
theorem IsInteger.fusedMulAdd (hx : x.IsInteger n) (hy : y.IsInteger m) (hz : z.IsInteger k)
    (h : (n * m + k).natAbs ≤ 2 ^ (53 : Nat)) : (Binary64.fusedMulAdd x y z).IsInteger (n * m + k) := by
  rw [fusedMulAdd_eq hx.finite hy.finite hz.finite, hx.value, hy.value, hz.value, ← Int.cast_mul,
    ← Int.cast_add]
  exact isInteger_nearest _ h

/-- The number that `ofInt` takes for zero is the positive one. -/
theorem isNegative_ofInt (h : k.natAbs ≤ 2 ^ (53 : Nat)) : (ofInt k).isNegative = decide (k < 0) := by
  rw [ofInt_eq h]
  rfl

/-- **A product of integers added to an integer** is the number for the exact sum, down to the sign of
zero: a sum of zero would be negative only if the integer and the product both were. -/
theorem IsInteger.fusedMulAdd_ofInt (hx : x.IsInteger n) (hy : y.IsInteger m)
    (hk : k.natAbs ≤ 2 ^ (53 : Nat)) : Binary64.fusedMulAdd x y (ofInt k) = ofInt (n * m + k) := by
  have hz := isInteger_ofInt hk
  rw [fusedMulAdd_eq hx.finite hy.finite hz.finite, hx.value, hy.value, hz.value, ← Int.cast_mul,
    ← Int.cast_add, ofInt_eq_nearest (n * m + k)]
  by_cases hzero : n * m + k = 0
  · suffices hsign : ((x.isNegative != y.isNegative) && (ofInt k).isNegative) = false by rw [hsign]
    rw [isNegative_ofInt hk, Bool.and_eq_false_iff, or_iff_not_imp_right, Bool.not_eq_false,
      decide_eq_true_iff]
    intro hnegative
    have hpos : 0 < n * m := by omega
    obtain ⟨s, u, rfl, -, hs⟩ := hx.exists_units
    obtain ⟨t, v, rfl, -, ht⟩ := hy.exists_units
    rw [isNegative, isNegative, hs (left_ne_zero_of_mul hpos.ne'), ht (right_ne_zero_of_mul hpos.ne'),
      bne_eq_false_iff_eq, decide_eq_decide]
    exact neg_iff_neg_of_mul_pos hpos
  · exact nearest_of_ne_zero (Int.cast_ne_zero.mpr hzero) _ _

theorem rem_finite (s t : Bool) (u v : Magnitude) :
    Binary64.finite s u % .finite t v = if v.units = 0 then nan else round s (u.units % v.units) 1 := by
  change rem (Binary64.finite s u) (.finite t v) = _
  rw [rem]

/-- A whole number of ones with a sign, which is that of the integer unless it is zero. -/
theorem isInteger_round {s : Bool} (h : n.natAbs ≤ 2 ^ (53 : Nat)) (hsign : n ≠ 0 → s = decide (n < 0)) :
    (round s (n.natAbs * unitsPerOne) 1).IsInteger n := by
  have hround := round_units s (wholeOnes n h) Nat.one_pos
  rw [Nat.one_mul] at hround
  have heq : round s (n.natAbs * unitsPerOne) 1 = .finite s (wholeOnes n h) := hround
  rw [heq]
  by_cases hzero : n = 0
  · have hunits : (wholeOnes n h).units = 0 :=
      Nat.mul_eq_zero.mpr (Or.inl (Int.natAbs_eq_zero.mpr hzero))
    have hisZero : (Binary64.finite s (wholeOnes n h)).isZero = true := beq_iff_eq.mpr hunits
    exact ⟨rfl, by rw [toRat_of_isZero hisZero, hzero, Int.cast_zero]⟩
  · rw [hsign hzero, ← ofInt_eq h]
    exact isInteger_ofInt h

/-- Remainders of integers are exact: they are the remainders of the truncated division. -/
theorem IsInteger.rem (hx : x.IsInteger n) (hy : y.IsInteger m) (hm : m ≠ 0)
    (h : (n.tmod m).natAbs ≤ 2 ^ (53 : Nat)) : (x % y).IsInteger (n.tmod m) := by
  obtain ⟨s, u, rfl, hu, hsign⟩ := hx.exists_units
  obtain ⟨t, v, rfl, hv, -⟩ := hy.exists_units
  have hnonzero : v.units ≠ 0 := by
    rw [hv]
    exact Nat.mul_ne_zero (Int.natAbs_ne_zero.mpr hm) unitsPerOne_pos.ne'
  have hunits : u.units % v.units = (n.tmod m).natAbs * unitsPerOne := by
    rw [hu, hv, Nat.mul_mod_mul_right, Int.natAbs_tmod]
  rw [rem_finite, if_neg hnonzero, hunits]
  refine isInteger_round h ?_
  intro hne
  have hn : n ≠ 0 := by
    rintro rfl
    exact hne (Int.zero_tmod m)
  rw [hsign hn, decide_eq_decide]
  constructor
  · intro hneg
    have hnonneg := Int.tmod_nonneg m (neg_nonneg.mpr hneg.le)
    rw [Int.neg_tmod] at hnonneg
    omega
  · intro hneg
    by_contra hnonneg
    have hmod := Int.tmod_nonneg m (not_lt.mp hnonneg)
    omega

end Integers

end Binary64
end Abacus
