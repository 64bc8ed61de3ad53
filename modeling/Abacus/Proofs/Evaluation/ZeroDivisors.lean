/-
# Division by a zero scalar

A zero scalar as the divisor is noticed where it is used: by fractions before anything is computed, and by
scalars, vectors and matrices at each element.  So a division by a zero scalar fails, unless the dividend
is a vector or a matrix without elements.  Nothing is divided then, and the dividend is the result
(`combine_zero`).

A failure is never lost: a tree that evaluates to a value has parts that all evaluate to values
(`exists_ok_of_occurs`), because operands and arguments are evaluated before they are used and the first
error ends the evaluation.

Main statement: `zero_divisor_aborts`.
-/
import Abacus.Evaluation.Tree
import Abacus.Proofs.Fraction.Operations
import Abacus.Proofs.Value.Pointwise

namespace Abacus

/-! ## 1. Operators with a zero scalar on the right -/

namespace Value

/-- A vector or a matrix without elements. -/
def isEmpty : Value → Bool
  | vector xs => xs.isEmpty
  | matrix m => m.rowCount == 0 || m.columnCount == 0
  | _ => false

section ZeroDivisor

variable {v : Value} {s : Shape} {op : Operator} {cause : Cause} {y : Binary64}

/-- An empty value is one without places. -/
theorem isEmpty_eq_false_iff (hv : v.shape? = some s) :
    v.isEmpty = false ↔ 0 < s.rows ∧ 0 < s.columns := by
  cases v with
  | scalar x =>
    cases hv
    exact iff_of_true rfl ⟨Nat.one_pos, Nat.one_pos⟩
  | vector xs =>
    cases hv
    simp [isEmpty, Shape.rows, Shape.columns, List.length_pos_iff]
  | matrix m =>
    cases hv
    simp [isEmpty, Shape.rows, Shape.columns, Matrix.dimensions, Nat.pos_iff_ne_zero]
  | rational q => cases hv

theorem larger_scalar (s : Shape) : s.larger .scalar = s := by
  cases s <;> rfl

theorem any_const_true_iff : (s.any fun _ _ => true) = true ↔ 0 < s.rows ∧ 0 < s.columns := by
  rw [Shape.any_eq_true_iff]
  constructor
  · rintro ⟨i, j, hi, hj, -⟩
    exact ⟨Nat.zero_lt_of_lt hi, Nat.zero_lt_of_lt hj⟩
  · rintro ⟨hrows, hcolumns⟩
    exact ⟨0, 0, hrows, hcolumns, rfl⟩

/-- A value without places is all that its shape can be filled to. -/
theorem fill_of_isEmpty (hv : v.shape? = some s) (hempty : v.isEmpty = true)
    (f : Nat → Nat → Binary64) : s.fill f = v := by
  refine eq_of_elements (shape?_fill (proper_of_shape? hv) f) hv ?_
  intro i j hi hj
  have hplaces := (isEmpty_eq_false_iff hv).mpr ⟨Nat.zero_lt_of_lt hi, Nat.zero_lt_of_lt hj⟩
  rw [hempty] at hplaces
  cases hplaces

/-- **Dividing by a zero scalar** fails, unless there is nothing to divide. -/
theorem combine_zero (hop : zeroDivisor? op = some cause) (hy : y.isZero = true) (v : Value)
    (p : Position) :
    combine op v (scalar y) p = if v.isEmpty then .ok v else .error ⟨cause, p⟩ := by
  cases hshape : v.shape? with
  | none =>
    cases v with
    | scalar x => cases hshape
    | vector xs => cases hshape
    | matrix m => cases hshape
    | rational q =>
      have hdivisor : (Fraction.ofNumber y).numerator.isZero = true := hy
      rw [combine, applyFractions_of_isZero hdivisor hop]
      rfl
  | some s =>
    have hfits : s.Fits .scalar := by
      cases s <;> trivial
    have hkind : ¬ (op = .mul ∧ v.kind = .matrix ∧ (scalar y).kind = .matrix) := by
      rintro ⟨-, -, hscalar⟩
      cases hscalar
    have hzero : (fun i j => ((scalar y).element i j).isZero) = fun _ _ => true :=
      funext fun _ => funext fun _ => hy
    rw [combine_of_fits hshape rfl hkind hfits, larger_scalar, atPlaces, hzero, guarded, hop]
    dsimp only
    by_cases hempty : v.isEmpty = true
    · have hnone : ¬ (s.any fun _ _ => true) = true := by
        rw [any_const_true_iff, ← isEmpty_eq_false_iff hshape, hempty]
        exact Bool.noConfusion
      rw [if_neg hnone, if_pos hempty, fill_of_isEmpty hshape hempty]
    · have hsome : (s.any fun _ _ => true) = true :=
        any_const_true_iff.mpr ((isEmpty_eq_false_iff hshape).mp (Bool.eq_false_of_not_eq_true hempty))
      rw [if_pos hsome, if_neg hempty]

end ZeroDivisor

end Value

/-! ## 2. Trees in trees -/

/-- The tree stands somewhere in another one. -/
inductive Expr.Occurs (e : Expr) : Expr → Prop
  | here : Occurs e e
  | operand {a : Expr} (p : Position) : Occurs e a → Occurs e (.negate a p)
  | left {l : Expr} (op : Operator) (r : Expr) (p : Position) : Occurs e l → Occurs e (.binary op l r p)
  | right {r : Expr} (op : Operator) (l : Expr) (p : Position) : Occurs e r → Occurs e (.binary op l r p)
  | argument {a : Expr} (f : Text) {es : List Expr} (p : Position) : a ∈ es → Occurs e a →
      Occurs e (.call f es p)

namespace Environment

variable {env : Environment}

theorem exists_ok_of_mem : ∀ {es : List Expr} {vs : List Value}, env.evalAll es = .ok vs →
    ∀ e ∈ es, ∃ v, env.eval e = .ok v
  | [], _, _, e, he => absurd he List.not_mem_nil
  | a :: es, vs, h, e, he => by
    rw [evalAll] at h
    obtain ⟨v, hv, hrest⟩ := bind_eq_ok h
    obtain ⟨ws, hws, -⟩ := bind_eq_ok hrest
    rcases List.mem_cons.mp he with rfl | hmem
    · exact ⟨v, hv⟩
    · exact exists_ok_of_mem hws e hmem

/-- **No failure is lost**: the parts of a tree that has a value have values. -/
theorem exists_ok_of_occurs {e t : Expr} (h : e.Occurs t) {w : Value} (hw : env.eval t = .ok w) :
    ∃ v, env.eval e = .ok v := by
  induction h generalizing w with
  | here => exact ⟨w, hw⟩
  | operand p _ ih =>
    rw [eval] at hw
    obtain ⟨v, hv, -⟩ := bind_eq_ok hw
    exact ih hv
  | left op r p _ ih =>
    rw [eval] at hw
    obtain ⟨v, hv, -⟩ := bind_eq_ok hw
    exact ih hv
  | right op l p _ ih =>
    rw [eval] at hw
    obtain ⟨v, -, hrest⟩ := bind_eq_ok hw
    obtain ⟨u, hu, -⟩ := bind_eq_ok hrest
    exact ih hu
  | argument f p hmem _ ih =>
    rw [eval] at hw
    split at hw
    · cases hw
    · obtain ⟨vs, hvs, -⟩ := bind_eq_ok hw
      obtain ⟨v, hv⟩ := exists_ok_of_mem hvs _ hmem
      exact ih hv

/-! ## 3. Evaluation ends -/

/-- **A division by a zero scalar ends the evaluation** of every tree that it stands in, with the error of
its operator, unless the dividend has no elements; then its value is the dividend. -/
theorem zero_divisor_aborts {op : Operator} {cause : Cause}
    (hop : (op = .div ∧ cause = .divisionByZero) ∨ (op = .mod ∧ cause = .moduloByZero)) {l r : Expr}
    {v : Value} {y : Binary64} (hl : env.eval l = .ok v) (hr : env.eval r = .ok (.scalar y))
    (hy : y.isZero = true) (p : Position) :
    (v.isEmpty = false → env.eval (.binary op l r p) = .error ⟨cause, p⟩ ∧
        ∀ e, (Expr.binary op l r p).Occurs e → ∀ w, env.eval e ≠ .ok w) ∧
      (v.isEmpty = true → env.eval (.binary op l r p) = .ok v) := by
  have hdivisor : Value.zeroDivisor? op = some cause := by
    obtain ⟨rfl, rfl⟩ | ⟨rfl, rfl⟩ := hop <;> rfl
  have hnode : env.eval (.binary op l r p) = if v.isEmpty then .ok v else .error ⟨cause, p⟩ := by
    rw [eval, hl, ok_bind, hr, ok_bind]
    exact Value.combine_zero hdivisor hy v p
  constructor
  · intro hempty
    rw [if_neg (Bool.not_eq_true _ ▸ hempty)] at hnode
    refine ⟨hnode, ?_⟩
    intro e he w hw
    obtain ⟨u, hu⟩ := exists_ok_of_occurs he hw
    rw [hnode] at hu
    cases hu
  · intro hempty
    rw [hnode, if_pos hempty]

namespace Example

/-- The vector of one and pi over zero, as an operand of a sum. -/
theorem zero_divisor_aborts_vector :
    (fresh false).eval (.vector [.one, pi] ⟨1, 1⟩) = .ok (.vector [.one, pi]) ∧
      (fresh false).eval (.number .zero ⟨1, 8⟩) = .ok (.scalar .zero) ∧
      (fresh false).eval
          (.binary .div (.vector [.one, pi] ⟨1, 1⟩) (.number .zero ⟨1, 8⟩) ⟨1, 7⟩) =
        .error ⟨.divisionByZero, ⟨1, 7⟩⟩ ∧
      ∀ w, (fresh false).eval (.binary .add
          (.binary .div (.vector [.one, pi] ⟨1, 1⟩) (.number .zero ⟨1, 8⟩) ⟨1, 7⟩)
          (.name ['e'] ⟨1, 10⟩) ⟨1, 9⟩) ≠ .ok w := by
  have hvector : (fresh false).eval (.vector [.one, pi] ⟨1, 1⟩) = .ok (.vector [.one, pi]) := rfl
  have hzero : (fresh false).eval (.number .zero ⟨1, 8⟩) = .ok (.scalar .zero) := rfl
  obtain ⟨hfails, -⟩ := zero_divisor_aborts (Or.inl ⟨rfl, rfl⟩) hvector hzero rfl ⟨1, 7⟩
  obtain ⟨hnode, hwhole⟩ := hfails rfl
  exact ⟨hvector, hzero, hnode, hwhole _ (.left _ _ _ .here)⟩

/-- The empty vector over zero is the empty vector, and a remainder of an empty row by zero is that row. -/
theorem empty_over_zero :
    (fresh false).eval (.vector [] ⟨1, 1⟩) = .ok (.vector []) ∧
      (fresh false).eval (.number .zero ⟨1, 4⟩) = .ok (.scalar .zero) ∧ Binary64.zero.isZero = true ∧
      (fresh false).eval (.binary .div (.vector [] ⟨1, 1⟩) (.number .zero ⟨1, 4⟩) ⟨1, 3⟩) =
        .ok (.vector []) ∧
      (fresh false).eval (.binary .mod (.matrix [[]] ⟨1, 1⟩) (.number .zero ⟨1, 6⟩) ⟨1, 5⟩) =
        .ok (.matrix ⟨[[]], by decide⟩) := ⟨rfl, rfl, rfl, rfl, rfl⟩

end Example

end Environment
end Abacus
