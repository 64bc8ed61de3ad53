/-
# Results are rounded once, and what that leaves of a result

A finite number stands for a rational number, `x.toRat`, and every rational number `v` has a number
nearest to it, `nearest s v`, where `s` is the sign of an exact zero.  Products and fused sums of finite
numbers are the numbers nearest to what they would be without rounding (`mul_eq`, `fusedMulAdd_eq`), so
the questions about them are questions about rational numbers:

* `nearest s v` is zero if `v` is at most `2^-1075` in size, half the smallest positive number, and
  otherwise not.  The product of two numbers other than zero can be as small as `2^-2148`, so it can be
  zero (`isZero_mul_iff`);
* the integers up to `2^53` are numbers (`toRat_ofInt`), and results that are nearest to integers are
  equal exactly if the integers round to the same number (`equals_nearest_intCast`).

`roundoff x y` is what rounding adds to the product of `x` and `y`, nothing if the product is a number
(`roundoff_eq_zero`).
-/
import Mathlib.Algebra.Order.Field.Basic
import Mathlib.Algebra.Order.Field.Rat
import Mathlib.Data.Rat.Lemmas
import Mathlib.Tactic.Linarith
import Mathlib.Tactic.Ring
import Abacus.Binary64.Arithmetic
import Abacus.Proofs.Binary64.ReadingBack

namespace Abacus

/-! ## 1. What rounds to no units -/

/-- A quotient rounds to no units if it is at most half a unit. -/
theorem nearestUnits_eq_zero_iff {num den : Nat} (hden : 0 < den) :
    nearestUnits num den = 0 ↔ 2 * num ≤ den := by
  by_cases hquotient : num / den = 0
  · have hlt : num < den := (Nat.div_eq_zero_iff_lt hden).mp hquotient
    have hstep : gridStep 0 = 1 := rfl
    unfold nearestUnits nearestEven
    dsimp only
    rw [hquotient, hstep, Nat.mul_one, Nat.mul_one, hquotient, Nat.mod_eq_of_lt hlt]
    split
    · omega
    · split <;> omega
  · have hpos := nearestUnits_pos (Nat.pos_of_ne_zero hquotient)
    have hle : den ≤ num := by
      by_contra hlt
      exact hquotient (Nat.div_eq_of_lt (Nat.lt_of_not_le hlt))
    omega

namespace Binary64

/-! ## 2. Numbers and rational numbers -/

/-- The rational number that a finite number stands for. -/
def toRat : Binary64 → ℚ
  | finite s m => signedUnits s m / unitsPerOne
  | _ => 0

/-- The number nearest to a rational number.  An exact zero is given its sign. -/
def nearest (zeroNegative : Bool) (v : ℚ) : Binary64 :=
  roundSigned zeroNegative (v.num * unitsPerOne) v.den

theorem unitsPerOne_cast_pos : (0 : ℚ) < unitsPerOne := Nat.cast_pos.mpr unitsPerOne_pos

theorem toRat_of_isZero {x : Binary64} (h : x.isZero = true) : x.toRat = 0 := by
  cases x with
  | nan => rfl
  | infinite s => rfl
  | finite s m =>
    have hunits : m.units = 0 := beq_iff_eq.mp h
    have hsigned : signedUnits s m = 0 := by
      cases s <;> simp [signedUnits, hunits]
    rw [toRat, hsigned, Int.cast_zero, zero_div]

@[simp] theorem toRat_neg (x : Binary64) : (-x).toRat = -x.toRat := by
  obtain _ | s | ⟨s, m⟩ := x
  · exact neg_zero.symm
  · exact neg_zero.symm
  · have hsigned : signedUnits (!s) m = -signedUnits s m := by
      cases s <;> simp [signedUnits]
    change (signedUnits (!s) m : ℚ) / unitsPerOne = -(signedUnits s m / unitsPerOne)
    rw [hsigned, Int.cast_neg, neg_div]

theorem ofInt_eq_nearest (n : Int) : ofInt n = nearest false n := rfl

/-- A common factor of the quotient makes no difference to its rounding. -/
theorem roundSigned_mul_right (s : Bool) (num : Int) (den : Nat) {c : Nat} (hc : 0 < c) :
    roundSigned s (num * c) (den * c) = roundSigned s num den := by
  have hcpos : (0 : Int) < c := Int.natCast_pos.mpr hc
  have hzero : num * c = 0 ↔ num = 0 := by
    rw [Int.mul_eq_zero, or_iff_left hcpos.ne']
  have hneg : num * c < 0 ↔ num < 0 := by
    constructor
    · intro h
      exact lt_of_mul_lt_mul_right (by simpa using h) hcpos.le
    · intro h
      exact mul_neg_of_neg_of_pos h hcpos
  have habs : (num * c).natAbs = num.natAbs * c := by
    rw [Int.natAbs_mul, Int.natAbs_natCast]
  unfold roundSigned round
  simp only [hzero, hneg, habs, nearestUnits_mul_right _ _ hc]

/-- The nearest number can be found from any quotient for the rational number. -/
theorem nearest_div (s : Bool) (num : Int) {den : Nat} (hden : 0 < den) :
    nearest s (num / den) = roundSigned s (num * unitsPerOne) den := by
  have hpos : (0 : Int) < den := Int.natCast_pos.mpr hden
  obtain ⟨c, hnum, hquotient⟩ := Rat.exists_eq_mul_div_num_and_eq_mul_div_den num hpos.ne'
  rw [Int.cast_natCast] at hnum hquotient
  generalize (num : ℚ) / den = v at hnum hquotient ⊢
  have hc : 0 < c := by
    rw [hquotient] at hpos
    exact pos_of_mul_pos_left hpos (Int.natCast_nonneg v.den)
  lift c to Nat using hc.le
  have hden' : v.den * c = den := by
    rw [Nat.mul_comm]
    exact_mod_cast hquotient.symm
  calc nearest s v
      = roundSigned s (v.num * unitsPerOne) v.den := rfl
    _ = roundSigned s (v.num * unitsPerOne * c) (v.den * c) :=
      (roundSigned_mul_right _ _ _ (Int.natCast_pos.mp hc)).symm
    _ = roundSigned s (num * unitsPerOne) den := by
      rw [hden', Int.mul_right_comm, Int.mul_comm v.num, ← hnum]

/-- A count of squared units rounds as a quotient by the units of the one. -/
theorem nearest_squaredUnits (s : Bool) (k : Int) :
    nearest s (k / (unitsPerOne * unitsPerOne)) = roundSigned s k unitsPerOne := by
  have h := nearest_div s k (Nat.mul_pos unitsPerOne_pos unitsPerOne_pos)
  rw [Nat.cast_mul] at h
  rw [h, roundSigned_mul_right _ _ _ unitsPerOne_pos]

/-- A finite number is the number nearest to what it stands for. -/
theorem nearest_toRat {x : Binary64} (hx : x.isFinite = true) : nearest x.isNegative x.toRat = x := by
  obtain ⟨s, m, rfl⟩ := exists_finite hx
  have hround := roundSigned_mul_right s (signedUnits s m) 1 unitsPerOne_pos
  rw [Nat.one_mul] at hround
  rw [toRat, nearest_div _ _ unitsPerOne_pos, isNegative, hround, roundSigned_units]

/-! ## 3. One rounding -/

section Rounding

variable {x y : Binary64} {v : ℚ}

/-- Signed counts are equal if signs and counts are, or if both counts are zero. -/
theorem signedUnits_eq_iff (s t : Bool) (m n : Magnitude) :
    signedUnits s m = signedUnits t n ↔ (s = t ∧ m = n) ∨ (m.units = 0 ∧ n.units = 0) := by
  have hext : m = n ↔ m.units = n.units := ⟨congrArg Magnitude.units, Magnitude.ext_units⟩
  rw [hext]
  unfold signedUnits
  cases s <;> cases t <;> simp <;> omega

/-- Numbers are equal if they are the same number, or both zeros. -/
theorem equals_iff (hx : x ≠ nan) (hy : y ≠ nan) :
    x.equals y = true ↔ x = y ∨ (x.isZero = true ∧ y.isZero = true) := by
  cases x with
  | nan => exact absurd rfl hx
  | infinite s =>
    cases y with
    | nan => exact absurd rfl hy
    | infinite t => simp [equals, isZero]
    | finite t n => simp [equals, isZero]
  | finite s m =>
    cases y with
    | nan => exact absurd rfl hy
    | infinite t => simp [equals, isZero]
    | finite t n => simp [equals, isZero, signedUnits_eq_iff]

theorem round_ne_nan (s : Bool) (num den : Nat) : round s num den ≠ nan := by
  unfold round
  split <;> exact Binary64.noConfusion

theorem nearest_ne_nan (s : Bool) (v : ℚ) : nearest s v ≠ nan := by
  unfold nearest roundSigned
  split
  · exact Binary64.noConfusion
  · exact round_ne_nan _ _ _

/-- The sign given to an exact zero matters to nothing else. -/
theorem roundSigned_of_ne_zero {num : Int} (h : num ≠ 0) (s t : Bool) (den : Nat) :
    roundSigned s num den = roundSigned t num den := by
  unfold roundSigned
  rw [if_neg h, if_neg h]

theorem mul_unitsPerOne_ne_zero {n : Int} (h : n ≠ 0) : n * (unitsPerOne : Int) ≠ 0 :=
  Int.mul_ne_zero h (Int.natCast_pos.mpr unitsPerOne_pos).ne'

theorem nearest_of_ne_zero (hv : v ≠ 0) (s t : Bool) : nearest s v = nearest t v :=
  roundSigned_of_ne_zero (mul_unitsPerOne_ne_zero (Rat.num_ne_zero.mpr hv)) s t _

theorem nearest_zero (s : Bool) : nearest s 0 = finite s Magnitude.zero := by
  unfold nearest roundSigned
  rw [if_pos (by rw [Rat.num_zero, Int.zero_mul])]

/-- What stands for a number is not changed by rounding. -/
theorem toRat_nearest_toRat (hx : x.isFinite = true) (s : Bool) :
    (nearest s x.toRat).toRat = x.toRat := by
  by_cases hzero : x.toRat = 0
  · rw [hzero, nearest_zero]
    exact toRat_of_isZero rfl
  · rw [nearest_of_ne_zero hzero s x.isNegative, nearest_toRat hx]

theorem isZero_round_iff (s : Bool) {num den : Nat} (hden : 0 < den) :
    (round s num den).isZero = true ↔ 2 * num ≤ den := by
  rw [← nearestUnits_eq_zero_iff hden]
  unfold round
  split
  · exact beq_iff_eq
  · next h =>
    have hpos := magnitudeBound_pos
    simp only [isZero, Bool.false_eq_true, false_iff]
    omega

theorem isZero_roundSigned_iff (s : Bool) {num : Int} {den : Nat} (hden : 0 < den) :
    (roundSigned s num den).isZero = true ↔ 2 * num.natAbs ≤ den := by
  unfold roundSigned
  split
  · next h => simp [h, isZero, Magnitude.zero]
  · exact isZero_round_iff _ hden

theorem two_pow_unitExponent : (2 : ℚ) ^ unitExponent = unitsPerOne := by
  unfold unitsPerOne
  rw [Nat.cast_pow, Nat.cast_ofNat]

/-- **What rounds to zero** is at most half the smallest positive number. -/
theorem isZero_nearest_iff (s : Bool) (v : ℚ) :
    (nearest s v).isZero = true ↔ |v| ≤ 1 / 2 ^ (1075 : Nat) := by
  have hpow : (2 : ℚ) ^ (1075 : Nat) = 2 * unitsPerOne := by
    have hexponent : 1075 = unitExponent + 1 := rfl
    rw [hexponent, pow_succ', two_pow_unitExponent]
  have hden : (0 : ℚ) < v.den := Nat.cast_pos.mpr v.den_pos
  have habs : |v| = v.num.natAbs / v.den := by
    rw [Nat.cast_natAbs, Int.cast_abs]
    nth_rewrite 1 [← Rat.num_div_den v]
    rw [abs_div, Nat.abs_cast]
  rw [nearest, isZero_roundSigned_iff _ v.den_pos, Int.natAbs_mul, Int.natAbs_natCast, habs, hpow,
    div_le_div_iff₀ hden (mul_pos two_pos unitsPerOne_cast_pos), one_mul, ← Nat.cast_le (α := ℚ)]
  push_cast
  constructor <;> intro h <;> linarith

end Rounding

/-! ## 4. Products and fused sums -/

section Products

theorem mul_finite (s t : Bool) (m n : Magnitude) :
    finite s m * finite t n = round (s != t) (m.units * n.units) unitsPerOne := by
  change mul (finite s m) (finite t n) = _
  rw [mul]

/-- A count with a sign rounds to a number with that sign, also if the count is zero. -/
theorem roundSigned_signed (s : Bool) (num : Nat) {den : Nat} (hden : 0 < den) :
    roundSigned s (if s then -(num : Int) else num) den = round s num den := by
  by_cases hzero : num = 0
  · subst hzero
    have hround := round_units s Magnitude.zero hden
    rw [Magnitude.zero, Nat.mul_zero] at hround
    rw [hround]
    cases s <;> rfl
  · cases s with
    | false =>
      rw [if_neg Bool.false_ne_true, roundSigned, if_neg (by omega), Int.natAbs_natCast,
        decide_eq_false (by omega)]
    | true =>
      rw [if_pos rfl, roundSigned, if_neg (by omega), Int.natAbs_neg, Int.natAbs_natCast,
        decide_eq_true (by omega)]

theorem mul_comm (x y : Binary64) : x * y = y * x := by
  have hsign : ∀ s t : Bool, (s != t) = (t != s) := by decide
  cases x <;> cases y <;> first
    | rw [mul_finite, mul_finite, Nat.mul_comm, hsign]
    | (change mul _ _ = mul _ _; simp only [mul, hsign])

/-- The factors of a fused sum can be swapped. -/
theorem fusedMulAdd_comm (x y z : Binary64) : fusedMulAdd x y z = fusedMulAdd y x z := by
  have hsign : ∀ s t : Bool, (s != t) = (t != s) := by decide
  have hother : add (mul x y) z = add (mul y x) z := congrArg (add · z) (mul_comm x y)
  cases x with
  | nan | infinite => cases y <;> exact hother
  | finite s m =>
    cases y with
    | nan | infinite => exact hother
    | finite t n =>
      cases z with
      | nan | infinite => rfl
      | finite u k => rw [fusedMulAdd, fusedMulAdd, Int.mul_comm, hsign]

/-- A product is NaN only if a factor is, or for a zero and an infinity. -/
theorem mul_ne_nan {x y : Binary64} (hx : x ≠ nan) (hy : y ≠ nan) (hnonzero : y.isZero = false)
    (h : y.isFinite = true ∨ x.isZero = false) : x * y ≠ nan := by
  cases x with
  | nan => exact absurd rfl hx
  | infinite s =>
    cases y with
    | nan => exact absurd rfl hy
    | infinite t => exact Binary64.noConfusion
    | finite t n =>
      change (if n.units = 0 then nan else infinite (s != t)) ≠ nan
      rw [if_neg (beq_eq_false_iff_ne.mp hnonzero)]
      exact Binary64.noConfusion
  | finite s m =>
    cases y with
    | nan => exact absurd rfl hy
    | infinite t =>
      have hm : m.units ≠ 0 := by
        obtain hfinite | hzero := h
        · cases hfinite
        · exact beq_eq_false_iff_ne.mp hzero
      change (if m.units = 0 then nan else infinite (s != t)) ≠ nan
      rw [if_neg hm]
      exact Binary64.noConfusion
    | finite t n =>
      rw [mul_finite]
      exact round_ne_nan _ _ _

variable {x y z : Binary64} (hx : x.isFinite = true) (hy : y.isFinite = true)

include hx hy

/-- A product is the number nearest to the product of the rational numbers. -/
theorem mul_eq : x * y = nearest (x.isNegative != y.isNegative) (x.toRat * y.toRat) := by
  obtain ⟨s, m, rfl⟩ := exists_finite hx
  obtain ⟨t, n, rfl⟩ := exists_finite hy
  have hvalue : (finite s m).toRat * (finite t n).toRat
      = ((signedUnits s m * signedUnits t n : Int) : ℚ) / (unitsPerOne * unitsPerOne) := by
    rw [toRat, toRat, div_mul_div_comm, Int.cast_mul]
  have hsigned : signedUnits s m * signedUnits t n
      = if s != t then -((m.units * n.units : Nat) : Int) else (m.units * n.units : Nat) := by
    cases s <;> cases t <;> simp [signedUnits]
  rw [hvalue, nearest_squaredUnits, hsigned, mul_finite]
  exact (roundSigned_signed _ _ unitsPerOne_pos).symm

theorem isNegative_mul : (x * y).isNegative = (x.isNegative != y.isNegative) := by
  obtain ⟨s, m, rfl⟩ := exists_finite hx
  obtain ⟨t, n, rfl⟩ := exists_finite hy
  rw [mul_finite, round]
  split <;> rfl

/-- A fused sum is the number nearest to the sum of the exact product and the last number. -/
theorem fusedMulAdd_eq (hz : z.isFinite = true) : fusedMulAdd x y z
    = nearest ((x.isNegative != y.isNegative) && z.isNegative) (x.toRat * y.toRat + z.toRat) := by
  obtain ⟨s, m, rfl⟩ := exists_finite hx
  obtain ⟨t, n, rfl⟩ := exists_finite hy
  obtain ⟨u, k, rfl⟩ := exists_finite hz
  have hunits := unitsPerOne_cast_pos.ne'
  have hvalue : (finite s m).toRat * (finite t n).toRat + (finite u k).toRat
      = ((signedUnits s m * signedUnits t n + signedUnits u k * unitsPerOne : Int) : ℚ)
          / (unitsPerOne * unitsPerOne) := by
    rw [toRat, toRat, toRat, Int.cast_add, Int.cast_mul, Int.cast_mul, Int.cast_natCast, add_div,
      mul_div_mul_right _ _ hunits, div_mul_div_comm]
  rw [hvalue, nearest_squaredUnits, fusedMulAdd]
  rfl

/-- **A product is zero** if the exact product is at most half the smallest positive number. -/
theorem isZero_mul_iff :
    (x * y).isZero = true ↔ |x.toRat * y.toRat| ≤ 1 / 2 ^ (1075 : Nat) := by
  rw [mul_eq hx hy, isZero_nearest_iff]

end Products

/-- What rounding adds to a product. -/
def roundoff (x y : Binary64) : ℚ := (x * y).toRat - x.toRat * y.toRat

/-- Rounding adds nothing to a product that is a number. -/
theorem roundoff_eq_zero {x y z : Binary64} (hx : x.isFinite = true) (hy : y.isFinite = true)
    (hz : z.isFinite = true) (h : x.toRat * y.toRat = z.toRat) : roundoff x y = 0 := by
  rw [roundoff, mul_eq hx hy, h, toRat_nearest_toRat hz, sub_self]

/-! ## 5. Integers -/

section Integers

variable {x : Binary64} {n m : Int}

/-- A whole number of ones is on the grid. -/
def wholeOnes (n : Int) (h : n.natAbs ≤ 2 ^ (53 : Nat)) : Magnitude where
  units := n.natAbs * unitsPerOne
  onGrid := gridStep_dvd_mul_two_pow h
  bounded := by
    refine Nat.lt_of_le_of_lt (Nat.mul_le_mul_right _ h) ?_
    unfold unitsPerOne magnitudeBound
    rw [← Nat.pow_add]
    exact Nat.pow_lt_pow_right (by decide) (by decide)

theorem signedUnits_wholeOnes (h : n.natAbs ≤ 2 ^ (53 : Nat)) :
    signedUnits (decide (n < 0)) (wholeOnes n h) = n * unitsPerOne := by
  unfold signedUnits wholeOnes
  dsimp only
  rw [Nat.cast_mul]
  by_cases hneg : n < 0
  · rw [if_pos (decide_eq_true hneg), ← Int.neg_mul, Int.ofNat_natAbs_of_nonpos (by omega),
      Int.neg_neg]
  · rw [if_neg (by simpa using hneg), Int.natAbs_of_nonneg (by omega)]

theorem ofInt_eq (h : n.natAbs ≤ 2 ^ (53 : Nat)) :
    ofInt n = finite (decide (n < 0)) (wholeOnes n h) := by
  rw [← roundSigned_units, signedUnits_wholeOnes, ofInt]
  by_cases hzero : n = 0
  · subst hzero
    rfl
  · exact roundSigned_of_ne_zero (mul_unitsPerOne_ne_zero hzero) _ _ _

/-- **The integers up to `2^53` are numbers.** -/
theorem toRat_ofInt (h : n.natAbs ≤ 2 ^ (53 : Nat)) :
    (ofInt n).isFinite = true ∧ (ofInt n).toRat = n := by
  have hunits := unitsPerOne_cast_pos.ne'
  rw [ofInt_eq h]
  refine ⟨rfl, ?_⟩
  rw [toRat, signedUnits_wholeOnes, Int.cast_mul, Int.cast_natCast, mul_div_assoc, div_self hunits,
    mul_one]

/-- Integers within that range that round to the same number are the same. -/
theorem ofInt_inj (hn : n.natAbs ≤ 2 ^ (53 : Nat)) (hm : m.natAbs ≤ 2 ^ (53 : Nat)) :
    ofInt n = ofInt m ↔ n = m := by
  constructor
  · intro h
    have hvalue : ((n : Int) : ℚ) = m := by
      rw [← (toRat_ofInt hn).2, ← (toRat_ofInt hm).2, h]
    exact_mod_cast hvalue
  · intro h
    rw [h]

theorem isZero_ofInt_iff (n : Int) : (ofInt n).isZero = true ↔ n = 0 := by
  constructor
  · intro h
    by_contra hne
    rw [isZero_ofInt hne] at h
    exact Bool.false_ne_true h
  · rintro rfl
    rw [ofInt_eq_nearest, Int.cast_zero, nearest_zero]
    rfl

/-- Numbers nearest to integers are equal if the integers round to the same number: no integer other
than zero is near enough to zero. -/
theorem equals_nearest_intCast (s t : Bool) (n m : Int) :
    (nearest s n).equals (nearest t m) = true ↔ ofInt n = ofInt m := by
  have hofInt : ∀ (s : Bool) {n : Int}, n ≠ 0 → nearest s n = ofInt n := by
    intro s n hn
    exact nearest_of_ne_zero (Int.cast_ne_zero.mpr hn) s false
  have hzero : ∀ (s : Bool) (n : Int), (nearest s n).isZero = true ↔ n = 0 := by
    intro s n
    by_cases hn : n = 0
    · rw [hn, Int.cast_zero, nearest_zero]
      exact iff_of_true rfl rfl
    · rw [hofInt s hn, isZero_ofInt_iff]
  rw [equals_iff (nearest_ne_nan _ _) (nearest_ne_nan _ _), hzero, hzero]
  constructor
  · rintro (heq | ⟨rfl, rfl⟩)
    · by_cases hn : n = 0
      · have hm : m = 0 := by rwa [← hzero t, ← heq, hzero]
        rw [hn, hm]
      · have hm : m ≠ 0 := by rwa [Ne, ← hzero t, ← heq, hzero]
        rwa [hofInt s hn, hofInt t hm] at heq
    · rfl
  · intro heq
    by_cases hn : n = 0
    · exact Or.inr ⟨hn, by rwa [← isZero_ofInt_iff, ← heq, isZero_ofInt_iff]⟩
    · have hm : m ≠ 0 := by rwa [Ne, ← isZero_ofInt_iff, ← heq, isZero_ofInt_iff]
      exact Or.inl (by rwa [hofInt s hn, hofInt t hm])

theorem le_two_pow {k : Nat} (h : k ≤ maxExactInteger) : k ≤ 2 ^ (53 : Nat) :=
  h.trans (by decide)

theorem exactInteger?_finite (s : Bool) (m : Magnitude) : (finite s m).exactInteger?
    = if m.units % unitsPerOne = 0 ∧ m.units / unitsPerOne ≤ maxExactInteger then
        some (if s then -((m.units / unitsPerOne : Nat) : Int) else (m.units / unitsPerOne : Nat))
      else none := rfl

/-- What the exact integer of a number says about it. -/
theorem of_exactInteger? (h : x.exactInteger? = some n) :
    x.isFinite = true ∧ x.toRat = n ∧ n.natAbs ≤ maxExactInteger := by
  cases x with
  | nan => cases h
  | infinite s => cases h
  | finite s m =>
    rw [exactInteger?_finite] at h
    split at h
    · next hwhole =>
      obtain ⟨hmod, hle⟩ := hwhole
      obtain ⟨k, hk⟩ := Nat.dvd_of_mod_eq_zero hmod
      rw [hk, Nat.mul_div_cancel_left k unitsPerOne_pos] at h hle
      have hvalue : signedUnits s m = n * unitsPerOne := by
        rw [← Option.some.inj h, signedUnits, hk]
        cases s with
        | false => rw [if_neg Bool.false_ne_true, if_neg Bool.false_ne_true, Nat.cast_mul, Int.mul_comm]
        | true => rw [if_pos rfl, if_pos rfl, Nat.cast_mul, Int.neg_mul, Int.mul_comm]
      have habs : n.natAbs = k := by
        rw [← Option.some.inj h]
        cases s <;> simp
      refine ⟨rfl, ?_, habs ▸ hle⟩
      rw [toRat, hvalue, div_eq_iff unitsPerOne_cast_pos.ne', Int.cast_mul, Int.cast_natCast]
    · cases h

theorem exactInteger?_neg (x : Binary64) : (-x).exactInteger? = x.exactInteger?.map (fun n => -n) := by
  cases x with
  | nan => rfl
  | infinite s => rfl
  | finite s m =>
    change exactInteger? (finite (!s) m) = _
    rw [exactInteger?_finite, exactInteger?_finite]
    split
    · generalize ((m.units / unitsPerOne : Nat) : Int) = k
      cases s <;> simp
    · rfl

theorem lessThan_zero_iff (hx : x.isFinite = true) : x.lessThan zero = true ↔ x.toRat < 0 := by
  obtain ⟨s, m, rfl⟩ := exists_finite hx
  have hzero : signedUnits false Magnitude.zero = 0 := rfl
  have hpos := unitsPerOne_cast_pos
  rw [toRat, div_lt_iff₀ hpos, zero_mul, Int.cast_lt_zero]
  simp only [lessThan, zero, atMost, equals, hzero, Bool.and_eq_true, decide_eq_true_eq,
    Bool.not_eq_true', beq_eq_false_iff_ne]
  omega

theorem zero_lessThan_iff (hx : x.isFinite = true) : zero.lessThan x = true ↔ 0 < x.toRat := by
  obtain ⟨s, m, rfl⟩ := exists_finite hx
  have hzero : signedUnits false Magnitude.zero = 0 := rfl
  have hpos := unitsPerOne_cast_pos
  rw [toRat, lt_div_iff₀ hpos, zero_mul, Int.cast_pos]
  simp only [lessThan, zero, atMost, equals, hzero, Bool.and_eq_true, decide_eq_true_eq,
    Bool.not_eq_true', beq_eq_false_iff_ne]
  omega

end Integers

end Binary64
end Abacus
