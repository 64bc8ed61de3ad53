/-
# Lowest terms are a canonical form

A fraction is in lowest terms, `IsReduced`, if its denominator is positive (or NaN, which has no sign)
and if integers in it have no common divisor and no negative zero among them.  Bringing a fraction to
lowest terms gives one that is (`isReduced_reduced`), and leaves one that is as it is
(`reduced_of_isReduced`), so doing it twice is doing it once.

What is special about integers is that the form then is canonical: the parts are the numerator and the
denominator of the rational number (`reduced_eq`), so that fractions of integers have the same lowest
terms exactly if they stand for the same rational number.  The window of integers that are divided at all
ends at `2^53 - 1`, and lowest terms do not leave it.

Main statement: `reduced_canonical`.
-/
import Abacus.Proofs.Fraction.ExactArithmetic
import Abacus.Proofs.Fraction.LowestTerms

namespace Abacus

open Binary64

namespace Fraction

section CanonicalForm

variable {q r : Fraction} {n d m e : Int}

/-! ## 1. Fractions of integers in the window -/

theorem ofIntegers_iff : q.OfIntegers n d ↔
    q.HasParts n d ∧ n.natAbs ≤ maxExactInteger ∧ d.natAbs ≤ maxExactInteger := by
  constructor
  · intro h
    obtain ⟨hnumerator, hn⟩ := exactInteger?_eq_some_iff.mp h.numerator
    obtain ⟨hdenominator, hd⟩ := exactInteger?_eq_some_iff.mp h.denominator
    exact ⟨⟨hnumerator, hdenominator⟩, hn, hd⟩
  · rintro ⟨hparts, hn, hd⟩
    exact ⟨exactInteger?_eq_some_iff.mpr ⟨hparts.numerator, hn⟩,
      exactInteger?_eq_some_iff.mpr ⟨hparts.denominator, hd⟩⟩

/-- Lowest terms of integers are the integers of the rational number. -/
theorem OfIntegers.reduced (h : q.OfIntegers n d) :
    q.reduced.OfIntegers ((n : ℚ) / d).num ((n : ℚ) / d).den := by
  obtain ⟨hnumerator, hdenominator⟩ := reduced_eq h
  obtain ⟨hnum, hden⟩ := h.natAbs_num_den_le
  refine ofIntegers_iff.mpr ⟨⟨?_, ?_⟩, hnum, hden⟩
  · rw [hnumerator]
    exact isInteger_ofInt (le_two_pow hnum)
  · rw [hdenominator]
    exact isInteger_ofInt (le_two_pow hden)

/-- Moving the sign neither makes nor loses integers. -/
theorem ofIntegers_of_signNormalized (h : q.signNormalized.OfIntegers n d) :
    ∃ m e, q.OfIntegers m e := by
  unfold signNormalized at h
  split at h
  · have hnumerator := h.numerator
    have hdenominator := h.denominator
    rw [exactInteger?_neg, Option.map_eq_some_iff] at hnumerator hdenominator
    obtain ⟨m, hm, -⟩ := hnumerator
    obtain ⟨e, he, -⟩ := hdenominator
    exact ⟨m, e, hm, he⟩
  · exact ⟨n, d, h⟩

/-- Other fractions only have their sign moved. -/
theorem reduced_of_not_ofIntegers (h : ∀ n d, ¬ q.OfIntegers n d) : q.reduced = q.signNormalized := by
  unfold Fraction.reduced
  dsimp only
  split
  · next n d hn hd =>
    obtain ⟨m, e, hme⟩ := ofIntegers_of_signNormalized ⟨hn, hd⟩
    exact absurd hme (h m e)
  · rfl

/-! ## 2. Signs -/

/-- A number that is neither zero nor below it is above it, unless it is NaN. -/
theorem zero_lessThan_of_not_lessThan {x : Binary64} (hzero : x.isZero = false)
    (hnegative : x.lessThan .zero = false) : x = .nan ∨ Binary64.zero.lessThan x = true := by
  cases x with
  | nan => exact Or.inl rfl
  | infinite s =>
    cases s with
    | false => exact Or.inr rfl
    | true => cases hnegative
  | finite s u =>
    have hx : (Binary64.finite s u).isFinite = true := rfl
    generalize Binary64.finite s u = x at hx hzero hnegative ⊢
    rw [← Bool.not_eq_true, lessThan_zero_iff hx, not_lt] at hnegative
    have hne : x.toRat ≠ 0 := by
      intro hvalue
      have hisZero := (IsInteger.isZero_iff ⟨hx, hvalue.trans Int.cast_zero.symm⟩).mpr rfl
      rw [hzero] at hisZero
      exact Bool.false_ne_true hisZero
    exact Or.inr ((zero_lessThan_iff hx).mpr (lt_of_le_of_ne hnegative hne.symm))

/-- A negative number has a positive one on the other side of zero. -/
theorem not_neg_lessThan_zero {x : Binary64} (h : x.lessThan .zero = true) :
    (-x).lessThan .zero = false := by
  cases x with
  | nan => rfl
  | infinite s =>
    cases s with
    | false => cases h
    | true => rfl
  | finite s u =>
    have hx : (Binary64.finite s u).isFinite = true := rfl
    have hneg : (-Binary64.finite s u).isFinite = true := rfl
    rw [lessThan_zero_iff hx] at h
    rw [← Bool.not_eq_true, lessThan_zero_iff hneg, toRat_neg]
    linarith

theorem signNormalized_denominator (q : Fraction) :
    q.signNormalized.denominator.lessThan .zero = false := by
  unfold Fraction.signNormalized
  split
  · next h => exact not_neg_lessThan_zero h
  · next h => exact Bool.eq_false_of_not_eq_true h

/-! ## 3. Being in lowest terms -/

/-- The denominator is not negative, and integers are coprime and written without a negative zero. -/
structure IsReduced (q : Fraction) : Prop where
  nonnegative : q.denominator.lessThan .zero = false
  coprime : ∀ n d, q.OfIntegers n d → 0 < d ∧ Nat.Coprime n.natAbs d.natAbs ∧
    q.numerator = ofInt n ∧ q.denominator = ofInt d

theorem isReduced_reduced (q : Fraction) : q.reduced.IsReduced := by
  by_cases hintegers : ∃ n d, q.OfIntegers n d
  · obtain ⟨n, d, h⟩ := hintegers
    obtain ⟨hnumerator, hdenominator⟩ := reduced_eq h
    obtain ⟨hparts, -, -⟩ := ofIntegers_iff.mp h.reduced
    have hden : (0 : Int) < ((n : ℚ) / d).den := Int.natCast_pos.mpr (Rat.den_pos _)
    constructor
    · rw [← Bool.not_eq_true, lessThan_zero_iff hparts.denominator.finite, hparts.denominator.value,
        Int.cast_lt_zero]
      omega
    · intro n' d' h'
      obtain ⟨hparts', -, -⟩ := ofIntegers_iff.mp h'
      obtain rfl := hparts'.numerator.unique hparts.numerator
      obtain rfl := hparts'.denominator.unique hparts.denominator
      exact ⟨hden, Rat.reduced _, hnumerator, hdenominator⟩
  · have hnone : ∀ n d, ¬ q.OfIntegers n d := fun n d h => hintegers ⟨n, d, h⟩
    rw [reduced_of_not_ofIntegers hnone]
    refine ⟨q.signNormalized_denominator, ?_⟩
    intro n d h
    exact absurd (ofIntegers_of_signNormalized h) hintegers

/-- Lowest terms stay as they are. -/
theorem reduced_of_isReduced (h : q.IsReduced) : q.reduced = q := by
  by_cases hintegers : ∃ n d, q.OfIntegers n d
  · obtain ⟨n, d, hnd⟩ := hintegers
    obtain ⟨hpos, hcoprime, hn, hd⟩ := h.coprime n d hnd
    obtain ⟨hnumerator, hdenominator⟩ := reduced_eq hnd
    refine ext_parts ?_ ?_
    · rw [hnumerator, Rat.num_div_eq_of_coprime hpos hcoprime, hn]
    · rw [hdenominator, Rat.den_div_eq_of_coprime hpos hcoprime, hd]
  · rw [reduced_of_not_ofIntegers (fun n d h => hintegers ⟨n, d, h⟩)]
    exact if_neg (Bool.not_eq_true _ ▸ h.nonnegative)

/-! ## 4. The canonical form -/

/-- **Lowest terms are canonical.**  For any fraction, doing it twice is doing it once, and the denominator
is positive unless it is NaN.  For integers in the window, the parts are coprime integers in the same
ratio, and fractions have the same lowest terms exactly if they stand for the same rational number. -/
theorem reduced_canonical (q : Fraction) :
    q.reduced.reduced = q.reduced ∧
      (q.reduced.denominator = .nan ∨ Binary64.zero.lessThan q.reduced.denominator = true) ∧
      ∀ n d : Int, q.HasParts n d → n.natAbs ≤ 2 ^ (53 : Nat) - 1 → d.natAbs ≤ 2 ^ (53 : Nat) - 1 →
        (∃ n' d' : Int, q.reduced.HasParts n' d' ∧ 0 < d' ∧ Nat.gcd n'.natAbs d'.natAbs = 1 ∧
            n' * d = n * d') ∧
          ∀ (r : Fraction) (m e : Int), r.HasParts m e → m.natAbs ≤ 2 ^ (53 : Nat) - 1 →
            e.natAbs ≤ 2 ^ (53 : Nat) - 1 → ((n : ℚ) / d = m / e ↔ q.reduced = r.reduced) := by
  refine ⟨reduced_of_isReduced q.isReduced_reduced,
    zero_lessThan_of_not_lessThan q.reduced.nonzero q.isReduced_reduced.nonnegative, ?_⟩
  intro n d hparts hn hd
  have hq : q.OfIntegers n d := ofIntegers_iff.mpr ⟨hparts, hn, hd⟩
  have hd' : (d : ℚ) ≠ 0 := Int.cast_ne_zero.mpr hq.ne_zero
  constructor
  · refine ⟨_, _, (ofIntegers_iff.mp hq.reduced).1, Int.natCast_pos.mpr (Rat.den_pos _),
      Rat.reduced _, ?_⟩
    have hvalue := Rat.num_div_den ((n : ℚ) / d)
    rw [div_eq_div_iff (Nat.cast_ne_zero.mpr (Rat.den_ne_zero _)) hd'] at hvalue
    exact_mod_cast hvalue
  · intro r m e hparts' hm he
    have hr : r.OfIntegers m e := ofIntegers_iff.mpr ⟨hparts', hm, he⟩
    have he' : (e : ℚ) ≠ 0 := Int.cast_ne_zero.mpr hr.ne_zero
    rw [reduced_eq_reduced_iff hq hr, div_eq_div_iff hd' he', ← Int.cast_mul, ← Int.cast_mul,
      Int.cast_inj]

end CanonicalForm

namespace Example

/-- Six over minus eight. -/
def sixEighthsBelow : Fraction := ⟨.ofInt 6, .ofInt (-8), by decide +kernel⟩

/-- Minus nine twelfths. -/
def nineTwelfthsBelow : Fraction := ⟨.ofInt (-9), .ofInt 12, by decide +kernel⟩

/-- Two ways to write minus three quarters have the same lowest terms. -/
theorem reduced_canonical_threeQuarters :
    sixEighthsBelow.HasParts 6 (-8) ∧ nineTwelfthsBelow.HasParts (-9) 12 ∧
      (∃ n d : Int, sixEighthsBelow.reduced.HasParts n d ∧ 0 < d ∧ Nat.gcd n.natAbs d.natAbs = 1 ∧
        n * -8 = 6 * d) ∧
      sixEighthsBelow.reduced = nineTwelfthsBelow.reduced := by
  have hsix : sixEighthsBelow.HasParts 6 (-8) :=
    ⟨isInteger_of_exactInteger? (by decide +kernel), isInteger_of_exactInteger? (by decide +kernel)⟩
  have hnine : nineTwelfthsBelow.HasParts (-9) 12 :=
    ⟨isInteger_of_exactInteger? (by decide +kernel), isInteger_of_exactInteger? (by decide +kernel)⟩
  obtain ⟨-, -, hintegers⟩ := reduced_canonical sixEighthsBelow
  obtain ⟨hlowest, hunique⟩ := hintegers 6 (-8) hsix (by decide) (by decide)
  refine ⟨hsix, hnine, hlowest, ?_⟩
  refine (hunique nineTwelfthsBelow (-9) 12 hnine (by decide) (by decide)).mp ?_
  norm_num

end Example

end Fraction
end Abacus
