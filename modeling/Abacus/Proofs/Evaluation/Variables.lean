/-
# Values depend on the variables of a text

The value of a text depends on the values that its variables are bound to, and on nothing else in the
environment.  This is plain for trees.  It holds of texts because every route of evaluation has the
outcome of the tree: the route that puts values in place of names looks up every bound name in the
text, also one in front of a parenthesis, and decides by the values which way to go on, but none of
that can be seen in the outcome.  The name of a function is no variable, so a binding of that name
makes no difference.

Main statements:

* `eval_congr`: environments that agree on the variables of a tree give it one value;
* `evaluate_congr`: so do environments that agree on the variables of the tree of a text.
-/
import Abacus.Proofs.Evaluation.Positions

namespace Abacus
namespace Environment

/-! ## 1. Environments that agree -/

/-- The two environments bind some names to the same values. -/
def AgreeOn (a b : Environment) (names : List Text) : Prop :=
  ∀ name ∈ names, a.get? name = b.get? name

/-- The two environments bind all names to the same values.  They may be of different strictness. -/
def SameBindings (a b : Environment) : Prop := ∀ name, a.get? name = b.get? name

theorem SameBindings.agreeOn {a b : Environment} (h : SameBindings a b) (names : List Text) :
    AgreeOn a b names :=
  fun name _ => h name

/-- Binding a name to one value in both keeps the bindings the same. -/
theorem SameBindings.bind {a b : Environment} (h : SameBindings a b) (name : Text) (v : Value) :
    SameBindings (a.bind name v) (b.bind name v) := by
  intro other
  by_cases hother : other = name
  · rw [hother, get?_bind_same, get?_bind_same]
  · rw [get?_bind_other a hother, get?_bind_other b hother, h other]

/-- Binding a name that is none of some makes no difference to these. -/
theorem agreeOn_bind (env : Environment) {name : Text} {names : List Text} (h : name ∉ names)
    (v : Value) : AgreeOn (env.bind name v) env names := by
  intro other hother
  refine env.get?_bind_other ?_ v
  rintro rfl
  exact h hother

theorem lookup_congr {a b : Environment} {name : Text} (h : a.get? name = b.get? name)
    (p : Position) : a.lookup name p = b.lookup name p := by
  simp only [lookup, h]

/-! ## 2. Trees -/

section Trees

variable {a b : Environment}

mutual

/-- **The value of a tree** depends on its variables. -/
theorem eval_congr : ∀ e : Expr, AgreeOn a b e.variableNames → a.eval e = b.eval e
  | .number _ _, _ => by rw [eval, eval]
  | .name name p, h => by
    rw [eval, eval]
    exact lookup_congr (h name List.mem_cons_self) p
  | .vector _ _, _ => by rw [eval, eval]
  | .matrix _ _, _ => by rw [eval, eval]
  | .negate e _, h => by rw [eval, eval, eval_congr e h]
  | .binary _ l r _, h => by
    obtain ⟨hl, hr⟩ := List.forall_mem_append.mp h
    rw [eval, eval, eval_congr l hl, eval_congr r hr]
  | .call _ es _, h => by rw [eval, eval, evalAll_congr es h]

theorem evalAll_congr :
    ∀ es : List Expr, AgreeOn a b (Expr.variableNamesOf es) → a.evalAll es = b.evalAll es
  | [], _ => by rw [evalAll, evalAll]
  | e :: es, h => by
    obtain ⟨he, hes⟩ := List.forall_mem_append.mp h
    rw [evalAll, evalAll, eval_congr e he, evalAll_congr es hes]

end

/-! ## 3. Texts -/

/-- **The value of a text** depends on the variables of its tree.  A text without a tree has one error
in all environments. -/
theorem evaluate_congr {text : Text} {origin : Position}
    (h : ∀ e, Expr.parse text origin = .ok e → AgreeOn a b e.variableNames) :
    a.evaluate text origin = b.evaluate text origin := by
  cases hrational : Literal.isRational text with
  | true =>
    -- A fraction is not the value of its tree, but the scanner knows nothing of environments.
    simp only [evaluate, Literal.classify_eq_rational.mpr hrational]
  | false =>
    rw [a.evaluate_eq_evaluateArithmetic text origin hrational,
      b.evaluate_eq_evaluateArithmetic text origin hrational, evaluateArithmetic_eq_eval,
      evaluateArithmetic_eq_eval]
    cases hparse : Expr.parse text origin with
    | error e => rfl
    | ok e => exact eval_congr e (h e hparse)

end Trees

end Environment
end Abacus
