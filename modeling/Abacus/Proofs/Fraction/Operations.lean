/-
# Operators on fractions of finite numbers

The operators on fractions compute in rounded numbers, and two of their properties are decided by how a
product is rounded.

A new fraction is made of a denominator other than zero, or not at all.  The denominator is the product
of two numbers other than zero, but that product is zero if it is at most `2^-1075` before rounding.  So
an operator can fail although no divisor is zero, and `failure?` says when it does and with which cause.

A sum takes the one cross product `cb` rounded and the other one exact, and is then rounded once.  The two
orders of a sum round different products, and a difference of a fraction with itself leaves what the
rounding of its product took away:

    a/b + c/d       nearest to  ad + cb + roundoff c b
    c/d + a/b       nearest to  ad + cb + roundoff a d
    a/b - a/b       nearest to  - roundoff a b

So sums commute when both products are rounded by the same amount, in particular when both are numbers
(`applyFractions_add_comm`), and a difference cancels exactly if the roundoff itself rounds to zero.

Main statements:

* `applyFractions_fails_iff`: when an operator fails, and with which error;
* `failure?_eq_zeroDivisor?_iff`: when these are the errors of the zero divisors;
* `sums_and_differences`: the two orders of a sum, and the difference of a fraction with itself.
-/
import Abacus.Value.Arithmetic
import Abacus.Proofs.Binary64.Nearest

namespace Abacus

open Binary64 Value

namespace Fraction

/-! ## 1. Fractions of finite numbers -/

/-- Both parts are finite. -/
structure IsFinite (q : Fraction) : Prop where
  numerator : q.numerator.isFinite = true
  denominator : q.denominator.isFinite = true

instance (q : Fraction) : Decidable q.IsFinite :=
  decidable_of_iff (q.numerator.isFinite = true ∧ q.denominator.isFinite = true)
    ⟨fun h => ⟨h.1, h.2⟩, fun h => ⟨h.1, h.2⟩⟩

theorem make_ok {x y : Binary64} (h : y.isZero = false) (p : Position) :
    make x y p = .ok ⟨x, y, h⟩ := dif_pos h

theorem make_error {x y : Binary64} (h : y.isZero = true) (p : Position) :
    make x y p = .error ⟨.divisionByZero, p⟩ := dif_neg (by simp [h])

end Fraction

/-! ## 2. When an operator fails -/

/-- The exact product that an operator puts in the denominator. -/
def denominatorProduct (op : Operator) (q r : Fraction) : ℚ :=
  match op with
  | .div => q.denominator.toRat * r.numerator.toRat
  | _ => q.denominator.toRat * r.denominator.toRat

/-- Why an operator fails on fractions of finite numbers, if it does. -/
def failure? (op : Operator) (q r : Fraction) : Option Cause :=
  if op = .mod ∧ r.numerator.isZero = true then some .moduloByZero
  else if |denominatorProduct op q r| ≤ 1 / 2 ^ (1075 : Nat) then some .divisionByZero
  else none

/-- The outcome of an operator is the predicted one. -/
def IsPredicted (op : Operator) (q r : Fraction) (p : Position) : Prop :=
  (∃ cause, failure? op q r = some cause ∧ applyFractions op q r p = .error ⟨cause, p⟩) ∨
    (failure? op q r = none ∧ ∃ f, applyFractions op q r p = .ok f)

section Failure

variable {q r : Fraction}

/-- A fraction over a product of finite numbers is made, unless the product rounds to zero. -/
theorem make_mul_outcome (x : Binary64) {y z : Binary64} (hy : y.isFinite = true)
    (hz : z.isFinite = true) (p : Position) :
    (|y.toRat * z.toRat| ≤ 1 / 2 ^ (1075 : Nat) ∧
        Fraction.make x (y * z) p = .error ⟨.divisionByZero, p⟩) ∨
      (¬ |y.toRat * z.toRat| ≤ 1 / 2 ^ (1075 : Nat) ∧ ∃ f, Fraction.make x (y * z) p = .ok f) := by
  rw [← isZero_mul_iff hy hz]
  by_cases hzero : (y * z).isZero = true
  · exact Or.inl ⟨hzero, Fraction.make_error hzero p⟩
  · exact Or.inr ⟨hzero, _, Fraction.make_ok (Bool.eq_false_of_not_eq_true hzero) p⟩

theorem denominatorProduct_div (h : r.numerator.isZero = true) : denominatorProduct .div q r = 0 := by
  rw [denominatorProduct, toRat_of_isZero h, mul_zero]

/-- The failures are those of the zero divisors, unless an operator puts a product in the denominator
that rounds to zero. -/
theorem failure?_eq_zeroDivisor?_iff (op : Operator) :
    failure? op q r = (if r.numerator.isZero = true then zeroDivisor? op else none) ↔
      (|denominatorProduct op q r| ≤ 1 / 2 ^ (1075 : Nat) →
        r.numerator.isZero = true ∧ (op = .div ∨ op = .mod)) := by
  unfold failure?
  by_cases hzero : r.numerator.isZero = true
  · cases op with
    | add | sub | mul => simp [zeroDivisor?]
    | div => simp [zeroDivisor?, hzero, denominatorProduct_div hzero]
    | mod => simp [zeroDivisor?, hzero]
  · simp [hzero]

/-- A zero fraction is refused as a divisor before anything is computed. -/
theorem applyFractions_of_isZero (h : r.numerator.isZero = true) {op : Operator} {cause : Cause}
    (hop : zeroDivisor? op = some cause) (p : Position) :
    applyFractions op q r p = .error ⟨cause, p⟩ := by
  cases op with
  | add | sub | mul => cases hop
  | div | mod =>
    cases hop
    exact if_pos h

theorem applyFractions_mod (h : r.numerator.isZero = false) (p : Position) :
    applyFractions .mod q r p
      = Fraction.make ((q.numerator * r.denominator) % (r.numerator * q.denominator))
          (q.denominator * r.denominator) p :=
  if_neg (by simp [h])

/-- What is left once the divisor of a remainder is not zero: the denominator decides. -/
theorem isPredicted_of_make {op : Operator} {p : Position} {x y z : Binary64}
    (hy : y.isFinite = true) (hz : z.isFinite = true)
    (hproduct : denominatorProduct op q r = y.toRat * z.toRat)
    (hmod : ¬ (op = .mod ∧ r.numerator.isZero = true))
    (hmake : applyFractions op q r p = Fraction.make x (y * z) p) : IsPredicted op q r p := by
  rw [IsPredicted, failure?, if_neg hmod, hproduct, hmake]
  obtain ⟨hsmall, herror⟩ | ⟨hlarge, hok⟩ := make_mul_outcome x hy hz p
  · exact Or.inl ⟨_, if_pos hsmall, herror⟩
  · exact Or.inr ⟨if_neg hlarge, hok⟩

/-- An operator fails with the cause that is predicted, or makes a fraction if none is. -/
theorem isPredicted_applyFractions (hq : q.IsFinite) (hr : r.IsFinite) (op : Operator)
    (p : Position) : IsPredicted op q r p := by
  cases op with
  | add | sub | mul =>
    exact isPredicted_of_make hq.denominator hr.denominator rfl (by simp) rfl
  | div =>
    by_cases hzero : r.numerator.isZero = true
    · refine Or.inl ⟨.divisionByZero, ?_, if_pos hzero⟩
      rw [failure?, if_neg (by simp), denominatorProduct_div hzero, abs_zero, if_pos (by positivity)]
    · exact isPredicted_of_make hq.denominator hr.numerator rfl (by simp) (if_neg hzero)
  | mod =>
    by_cases hzero : r.numerator.isZero = true
    · exact Or.inl ⟨.moduloByZero, if_pos ⟨rfl, hzero⟩, if_pos hzero⟩
    · exact isPredicted_of_make hq.denominator hr.denominator rfl (fun h => hzero h.2)
        (applyFractions_mod (Bool.eq_false_of_not_eq_true hzero) p)

/-- **When an operator on fractions fails**: exactly with the error that `failure?` predicts. -/
theorem applyFractions_fails_iff (hq : q.IsFinite) (hr : r.IsFinite) (op : Operator) (p : Position) :
    (∀ e, applyFractions op q r p = .error e ↔ failure? op q r = some e.cause ∧ e.position = p) ∧
      ((∃ f, applyFractions op q r p = .ok f) ↔ failure? op q r = none) := by
  obtain ⟨cause, hcause, herror⟩ | ⟨hnone, f, hok⟩ := isPredicted_applyFractions hq hr op p
  · rw [hcause, herror]
    constructor
    · intro e
      constructor
      · intro h
        cases h
        exact ⟨rfl, rfl⟩
      · rintro ⟨hc, rfl⟩
        rw [Option.some.inj hc]
    · exact iff_of_false (by rintro ⟨_, h⟩; cases h) (by rintro ⟨⟩)
  · rw [hnone, hok]
    constructor
    · intro e
      exact iff_of_false (by rintro ⟨⟩) (by rintro ⟨h, _⟩; cases h)
    · exact iff_of_true ⟨f, rfl⟩ rfl

end Failure

namespace Example

/-- One fifth. -/
def fifth : Fraction := ⟨.one, .ofInt 5, by decide +kernel⟩

/-- One third. -/
def third : Fraction := ⟨.one, .ofInt 3, by decide +kernel⟩

theorem applyFractions_fails_fifth : fifth.IsFinite ∧ third.IsFinite ∧
    (∀ e, applyFractions .add fifth third ⟨1, 1⟩ = .error e ↔
      failure? .add fifth third = some e.cause ∧ e.position = ⟨1, 1⟩) ∧
    ((∃ f, applyFractions .add fifth third ⟨1, 1⟩ = .ok f) ↔ failure? .add fifth third = none) := by
  have hfifth : fifth.IsFinite := by decide +kernel
  have hthird : third.IsFinite := by decide +kernel
  exact ⟨hfifth, hthird, applyFractions_fails_iff hfifth hthird .add ⟨1, 1⟩⟩

/-- The number nearest to `10^-200`. -/
def tiny : Binary64 := .round false unitsPerOne (10 ^ 200)

/-- A tiny number over itself. -/
def tinyOverTiny : Fraction := ⟨tiny, tiny, by decide +kernel⟩

/-- The sum of a fraction with itself fails, and so does the remainder by it, although it is not zero. -/
theorem small_denominators_fail : tinyOverTiny.IsFinite ∧ tinyOverTiny.numerator.isZero = false ∧
    applyFractions .add tinyOverTiny tinyOverTiny ⟨1, 1⟩ = .error ⟨.divisionByZero, ⟨1, 1⟩⟩ ∧
    applyFractions .mod tinyOverTiny tinyOverTiny ⟨1, 1⟩ = .error ⟨.divisionByZero, ⟨1, 1⟩⟩ := by
  have hnonzero : tinyOverTiny.numerator.isZero = false := by decide +kernel
  have hproduct : (tinyOverTiny.denominator * tinyOverTiny.denominator).isZero = true := by
    decide +kernel
  refine ⟨by decide +kernel, hnonzero, Fraction.make_error hproduct _, ?_⟩
  rw [applyFractions_mod hnonzero]
  exact Fraction.make_error hproduct _

end Example

/-! ## 3. Sums and differences -/

/-- Fractions of finite numbers whose cross products are finite and whose denominators do not multiply
to zero. -/
structure Addable (q r : Fraction) : Prop where
  left : q.IsFinite
  right : r.IsFinite
  leftProduct : (q.numerator * r.denominator).isFinite = true
  rightProduct : (r.numerator * q.denominator).isFinite = true
  nonzero : (q.denominator * r.denominator).isZero = false

/-- The number nearest to the exact numerator of a sum and the roundoff of its second cross product. -/
def sumNumerator (q r : Fraction) : Binary64 :=
  nearest ((q.numerator.isNegative != r.denominator.isNegative) &&
      (r.numerator.isNegative != q.denominator.isNegative))
    (q.numerator.toRat * r.denominator.toRat + r.numerator.toRat * q.denominator.toRat
      + roundoff r.numerator q.denominator)

/-- How the two orders of a sum agree. -/
structure SumsAgree (q r : Fraction) (p : Position) : Prop where
  /-- Both orders make a fraction over one denominator. -/
  sums : ∃ f g, applyFractions .add q r p = .ok f ∧ applyFractions .add r q p = .ok g ∧
    f.numerator = sumNumerator q r ∧ g.numerator = sumNumerator r q ∧
    f.denominator = q.denominator * r.denominator ∧ g.denominator = f.denominator
  /-- Rounded by one amount, the cross products have one sum, which equals itself unless it is zero over
  an infinity. -/
  agree : roundoff q.numerator r.denominator = roundoff r.numerator q.denominator →
    ∃ f, applyFractions .add q r p = .ok f ∧ applyFractions .add r q p = .ok f ∧
      (f.denominator.isFinite = true ∨ f.numerator.isZero = false → f.equals f = true)

/-- The difference of a fraction with itself. -/
def SelfCancels (q : Fraction) (p : Position) : Prop :=
  ∃ f, applyFractions .sub q q p = .ok f ∧
    (f.numerator.isZero = true ↔ |roundoff q.numerator q.denominator| ≤ 1 / 2 ^ (1075 : Nat))

section Sums

variable {q r : Fraction}

theorem Addable.symm (h : Addable q r) : Addable r q where
  left := h.right
  right := h.left
  leftProduct := h.rightProduct
  rightProduct := h.leftProduct
  nonzero := by rw [Binary64.mul_comm]; exact h.nonzero

theorem fusedMulAdd_eq_sumNumerator (h : Addable q r) :
    fusedMulAdd q.numerator r.denominator (r.numerator * q.denominator) = sumNumerator q r := by
  rw [fusedMulAdd_eq h.left.numerator h.right.denominator h.rightProduct,
    isNegative_mul h.right.numerator h.left.denominator, sumNumerator, roundoff]
  congr 1
  ring

/-- A sum, with its numerator as one rounding. -/
theorem applyFractions_add (h : Addable q r) (p : Position) : applyFractions .add q r p
    = .ok ⟨sumNumerator q r, q.denominator * r.denominator, h.nonzero⟩ := by
  rw [← fusedMulAdd_eq_sumNumerator h]
  exact Fraction.make_ok h.nonzero p

theorem applyFractions_sub (h : Addable q r) (p : Position) : applyFractions .sub q r p
    = .ok ⟨fusedMulAdd q.numerator r.denominator (-(r.numerator * q.denominator)),
        q.denominator * r.denominator, h.nonzero⟩ :=
  Fraction.make_ok h.nonzero p

/-- The two orders round one exact value if the cross products are rounded by one amount. -/
theorem sumNumerator_comm
    (h : roundoff q.numerator r.denominator = roundoff r.numerator q.denominator) :
    sumNumerator q r = sumNumerator r q := by
  unfold sumNumerator
  rw [h, Bool.and_comm, add_comm (q.numerator.toRat * r.denominator.toRat)]

theorem sumsAgree (h : Addable q r) (p : Position) : SumsAgree q r p where
  sums := ⟨_, _, applyFractions_add h p, applyFractions_add h.symm p, rfl, rfl, rfl,
    Binary64.mul_comm _ _⟩
  agree := by
    intro hroundoff
    refine ⟨_, applyFractions_add h p, ?_, ?_⟩
    · rw [applyFractions_add h.symm p]
      simp only [Binary64.mul_comm r.denominator, sumNumerator_comm hroundoff]
    · intro hdefined
      have hdenominator : q.denominator * r.denominator ≠ nan := by
        rw [mul_eq h.left.denominator h.right.denominator]
        exact nearest_ne_nan _ _
      have hproduct := mul_ne_nan (nearest_ne_nan _ _) hdenominator h.nonzero hdefined
      exact (equals_iff hproduct hproduct).mpr (Or.inl rfl)

theorem selfCancels (h : Addable q q) (p : Position) : SelfCancels q p := by
  refine ⟨_, applyFractions_sub h p, ?_⟩
  have hvalue : q.numerator.toRat * q.denominator.toRat + (-(q.numerator * q.denominator)).toRat
      = -roundoff q.numerator q.denominator := by
    rw [toRat_neg, roundoff]
    ring
  have hproduct : (-(q.numerator * q.denominator)).isFinite = true := by
    rw [← h.leftProduct]
    exact isFinite_neg _
  dsimp only
  rw [fusedMulAdd_eq h.left.numerator h.left.denominator hproduct, hvalue, isZero_nearest_iff,
    abs_neg]

/-- Sums commute if their cross products are numbers. -/
theorem applyFractions_add_comm (h : Addable q r) {x y : Binary64} (hx : x.isFinite = true)
    (hy : y.isFinite = true) (hleft : q.numerator.toRat * r.denominator.toRat = x.toRat)
    (hright : r.numerator.toRat * q.denominator.toRat = y.toRat) (p : Position) :
    applyFractions .add q r p = applyFractions .add r q p := by
  have hroundoff : roundoff q.numerator r.denominator = roundoff r.numerator q.denominator := by
    rw [roundoff_eq_zero h.left.numerator h.right.denominator hx hleft,
      roundoff_eq_zero h.right.numerator h.left.denominator hy hright]
  obtain ⟨f, hf, hf', -⟩ := (sumsAgree h p).agree hroundoff
  rw [hf, hf']

/-- **The two orders of a sum** round different products, and the difference of a fraction with itself
is the roundoff of its product. -/
theorem sums_and_differences (h : Addable q r) (p : Position) :
    SumsAgree q r p ∧ (Addable q q → SelfCancels q p) :=
  ⟨sumsAgree h p, fun hself => selfCancels hself p⟩

end Sums

namespace Example

/-- Fractions of small integers have exact products. -/
theorem sums_and_differences_fifth : Addable fifth third ∧ Addable fifth fifth ∧
    roundoff fifth.numerator third.denominator = roundoff third.numerator fifth.denominator ∧
    SumsAgree fifth third ⟨1, 1⟩ ∧ SelfCancels fifth ⟨1, 1⟩ := by
  have hsum : Addable fifth third := by
    constructor <;> decide +kernel
  have hself : Addable fifth fifth := by
    constructor <;> decide +kernel
  have hroundoff : roundoff fifth.numerator third.denominator
      = roundoff third.numerator fifth.denominator := by decide +kernel
  obtain ⟨hsums, hcancels⟩ := sums_and_differences hsum ⟨1, 1⟩
  exact ⟨hsum, hself, hroundoff, hsums, hcancels hself⟩

/-- The number nearest to one tenth. -/
def tenth : Binary64 := .round false unitsPerOne 10

/-- One tenth over itself. -/
def tenths : Fraction := ⟨tenth, tenth, by decide +kernel⟩

/-- One tenth over three. -/
def thirdOfTenth : Fraction := ⟨tenth, .ofInt 3, by decide +kernel⟩

theorem addable_tenths : Addable tenths thirdOfTenth := by
  constructor <;> decide +kernel

theorem addable_tenths_self : Addable tenths tenths := by
  constructor <;> decide +kernel

/-- Two orders of a sum that are not equal, and a difference that does not cancel. -/
theorem sums_differ : Addable tenths thirdOfTenth ∧ Addable tenths tenths ∧
    (∃ f g, applyFractions .add tenths thirdOfTenth ⟨1, 1⟩ = .ok f ∧
      applyFractions .add thirdOfTenth tenths ⟨1, 1⟩ = .ok g ∧
      f.IsFinite ∧ g.IsFinite ∧ f.equals g = false) ∧
    ∃ f, applyFractions .sub tenths tenths ⟨1, 1⟩ = .ok f ∧ f.IsFinite ∧
      f.numerator.isZero = false := by
  refine ⟨addable_tenths, addable_tenths_self, ⟨_, _, applyFractions_add addable_tenths _,
    applyFractions_add addable_tenths.symm _, ?_, ?_, ?_⟩,
    ⟨_, applyFractions_sub addable_tenths_self _, ?_, ?_⟩⟩ <;> decide +kernel

end Example

end Abacus
