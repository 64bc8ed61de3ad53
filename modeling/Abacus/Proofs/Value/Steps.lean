/-
# Adding one

The step operators add one to every number of a value, and to the numerator of a fraction the
denominator, in one fused operation.  The operators `+` and `-` with a scalar on the right go over the
numbers one by one, with a check for zero divisors, and combine fractions crosswise.  On numbers the two
do the same by definition.  On fractions a scalar stands for a fraction over one, and all that the
crosswise arrangement has in addition are products with one, which are exact for every number.  So both
numerators are a sum of numerator and denominator that is rounded once (`Binary64.fusedMulAdd_one`).

Main statements:

* `combine_scalar`: an operator that does not divide, with a scalar on the right of numbers;
* `combine_add_one` and `combine_sub_one`: the sum and the difference with the scalar one are steps.
-/
import Abacus.Proofs.Binary64.Nearest
import Abacus.Proofs.Value.Pointwise

namespace Abacus

/-! ## 1. Products with one -/

namespace Binary64

variable (x y z : Binary64)

theorem neg_mul_comm : -x * y = x * -y := by
  have hsign : ∀ s t : Bool, ((!s) != t) = (s != !t) := by decide
  have hneg : ∀ s (m : Magnitude), -finite s m = finite (!s) m := fun _ _ => rfl
  cases x <;> cases y <;> first
    | rw [hneg, hneg, mul_finite, mul_finite, hsign]
    | (change mul _ _ = mul _ _; simp only [neg, Neg.neg, mul, hsign])

protected theorem mul_one : x * one = x := by
  have hone : Magnitude.one.units = unitsPerOne := rfl
  cases x with
  | nan => rfl
  | infinite s =>
    change mul (infinite s) one = _
    rw [one, mul, hone, if_neg unitsPerOne_pos.ne', Bool.bne_false]
  | finite s m =>
    rw [one, mul_finite, hone, Nat.mul_comm, round_units _ _ unitsPerOne_pos, Bool.bne_false]

protected theorem one_mul : one * x = x := (mul_comm one x).trans x.mul_one

protected theorem add_comm : x + y = y + x := by
  change add x y = add y x
  cases x with
  | nan => cases y <;> rfl
  | infinite s =>
    cases y with
    | nan | finite => rfl
    | infinite t => cases s <;> cases t <;> rfl
  | finite s m =>
    cases y with
    | nan | infinite => rfl
    | finite t n => rw [add, add, Bool.and_comm, Int.add_comm]

/-- **A fused sum with a factor of one** is a sum, which is rounded once as well. -/
theorem fusedMulAdd_one : fusedMulAdd x one z = x + z := by
  have hother : add (mul x one) z = add x z := congrArg (add · z) x.mul_one
  cases x with
  | nan | infinite => exact hother
  | finite s m =>
    cases z with
    | nan | infinite => rfl
    | finite u k =>
      have hone : signedUnits false Magnitude.one = unitsPerOne := rfl
      have hunits := roundSigned_mul_right (s && u) (signedUnits s m + signedUnits u k) 1 unitsPerOne_pos
      rw [Nat.one_mul, Int.add_mul] at hunits
      rw [one, fusedMulAdd, hone, Bool.bne_false, hunits]
      rfl

/-- The sign of a product can be taken from either factor. -/
theorem fusedMulAdd_neg : fusedMulAdd (-x) y z = fusedMulAdd x (-y) z := by
  have hsign : ∀ s t : Bool, ((!s) != t) = (s != !t) := by decide
  have hneg : ∀ s (m : Magnitude), signedUnits (!s) m = -signedUnits s m := by
    intro s m
    cases s <;> simp [signedUnits]
  have hother : add (mul (-x) y) z = add (mul x (-y)) z := congrArg (add · z) (neg_mul_comm x y)
  cases x with
  | nan | infinite => cases y <;> exact hother
  | finite s m =>
    cases y with
    | nan | infinite => exact hother
    | finite t n =>
      cases z with
      | nan | infinite => rfl
      | finite u k =>
        change fusedMulAdd (finite (!s) m) (finite t n) _ = fusedMulAdd (finite s m) (finite (!t) n) _
        rw [fusedMulAdd, fusedMulAdd, hsign, hneg, hneg, Int.neg_mul, Int.mul_neg]

end Binary64

/-! ## 2. Steps -/

namespace Value

variable (p : Position)

/-- An operator that does not divide, between numbers and a scalar. -/
theorem combine_scalar (op : Operator) (hop : zeroDivisor? op = none) {v : Value}
    (hplain : ∀ q, v ≠ .rational q) (y : Binary64) :
    combine op v (.scalar y) p = .ok (v.mapNumbers fun x => op.apply x y) := by
  have hnumbers : ∀ x, applyNumbers op x y p = .ok (op.apply x y) := by
    intro x
    rw [applyNumbers, hop]
  have hrow : ∀ xs, withScalarRight op xs y p = .ok (xs.map fun x => op.apply x y) := by
    intro xs
    simp only [withScalarRight, hnumbers]
    exact List.mapM_pure
  cases v with
  | scalar x =>
    rw [combine, hnumbers]
    rfl
  | vector xs =>
    rw [combine, hrow]
    rfl
  | matrix m =>
    have hrows : rowsWithScalar op m y p = .ok (m.map fun x => op.apply x y) := by
      refine eq_of_map_rows ?_
      rw [rowsWithScalar, map_rows_collect]
      simp only [hrow]
      exact List.mapM_pure
    rw [combine, hrows]
    rfl
  | rational q => exact absurd rfl (hplain q)

/-- A fraction keeps its denominator in a crosswise sum with a fraction over one. -/
theorem make_eq_shifted {q : Fraction} {numerator delta : Binary64}
    (h : numerator = Binary64.fusedMulAdd delta q.denominator q.numerator) :
    Fraction.make numerator (q.denominator * .one) p = .ok (q.shifted delta) := by
  rw [h, Binary64.mul_one, Fraction.make, dif_pos q.nonzero]
  rfl

theorem applyFractions_add_one (q : Fraction) :
    applyFractions .add q (.ofNumber .one) p = .ok (q.shifted .one) := by
  have hnumerator : Binary64.fusedMulAdd q.numerator .one (.one * q.denominator)
      = Binary64.fusedMulAdd .one q.denominator q.numerator := by
    rw [Binary64.one_mul, Binary64.fusedMulAdd_one, Binary64.fusedMulAdd_comm, Binary64.fusedMulAdd_one,
      Binary64.add_comm]
  exact make_eq_shifted p hnumerator

theorem applyFractions_sub_one (q : Fraction) :
    applyFractions .sub q (.ofNumber .one) p = .ok (q.shifted (-.one)) := by
  have hnumerator : Binary64.fusedMulAdd q.numerator .one (-(.one * q.denominator))
      = Binary64.fusedMulAdd (-.one) q.denominator q.numerator := by
    rw [Binary64.one_mul, Binary64.fusedMulAdd_one, Binary64.fusedMulAdd_neg, Binary64.fusedMulAdd_comm,
      Binary64.fusedMulAdd_one, Binary64.add_comm]
  exact make_eq_shifted p hnumerator

/-- **The sum with the scalar one** is one step up, for every value. -/
theorem combine_add_one (v : Value) : combine .add v (.scalar .one) p = .ok v.incremented := by
  cases v with
  | scalar | vector | matrix => exact combine_scalar p .add rfl (by rintro q ⟨⟩) .one
  | rational q =>
    rw [combine, applyFractions_add_one]
    rfl

/-- **The difference with the scalar one** is one step down. -/
theorem combine_sub_one (v : Value) : combine .sub v (.scalar .one) p = .ok v.decremented := by
  cases v with
  | scalar | vector | matrix => exact combine_scalar p .sub rfl (by rintro q ⟨⟩) .one
  | rational q =>
    rw [combine, applyFractions_sub_one]
    rfl

end Value

end Abacus
