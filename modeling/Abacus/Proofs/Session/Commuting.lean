/-
# Statements that commute

A statement with a target reads the target, the variables in the text of its value, and whether the
environment is strict.  It writes the target, and only if it has a value.  So what it answers with does
not change when another name is bound that is not among the variables of its value, and two statements
neither of which reads the target of the other one can be run in any order.  Variables are those of the
tree: a name in front of an opening parenthesis is a function and is not read.

Two environments that are reached in different orders have their bindings in different orders, so they
are compared by what names are bound to, and answers are compared apart from them.

Main statements:

* `answer_eq_of_agreeOn`: what a statement answers with depends on what it reads;
* `commute_of_disjoint`: statements that do not read each other's targets commute.
-/
import Abacus.Proofs.Evaluation.Variables
import Abacus.Proofs.Session.Invariant

namespace Abacus

/-! ## 1. What a statement reads -/

namespace Statement

/-- The text of the value that a statement assigns or combines with, and its place. -/
def value? : Statement → Option (Text × Position)
  | assignment _ value p _ => some (value, p)
  | compound _ _ value p _ => some (value, p)
  | _ => none

/-- The name is no variable in the text of the value, if that text has a tree. -/
def Avoids (s : Statement) (name : Text) : Prop :=
  ∀ text p e, s.value? = some (text, p) → Expr.parse text p = .ok e → name ∉ e.variableNames

theorem avoids_of_parse {s : Statement} {text name : Text} {p : Position} {names : List Text}
    (hvalue : s.value? = some (text, p))
    (hparse : (Expr.parse text p).map Expr.variableNames = .ok names) (hname : name ∉ names) :
    s.Avoids name := by
  intro text' p' e hvalue' htree
  rw [hvalue] at hvalue'
  cases hvalue'
  rw [htree] at hparse
  cases hparse
  exact hname

/-- What is evaluated for a statement with a target is the text of its value. -/
theorem evaluated?_eq_value? {s : Statement} {target : Text} (h : s.target? = some target) :
    s.evaluated? = s.value? := by
  cases s with
  | expression text p => cases h
  | _ => rfl

end Statement

namespace Environment

section Answers

variable {a b : Environment}

/-- **What a statement with a target answers with** depends on the target, on the variables of its value,
and on strictness. -/
theorem answer_eq_of_agreeOn {s : Statement} {target : Text} (htarget : s.target? = some target)
    (hstrict : a.strict = b.strict) (hget : a.get? target = b.get? target)
    (hvalue : ∀ text p e, s.value? = some (text, p) → Expr.parse text p = .ok e →
      AgreeOn a b e.variableNames) : a.answer s = b.answer s := by
  have hsame : ∀ {name}, s.assigned? = some name ∨ s.updated? = some name →
      a.get? name = b.get? name := by
    intro name hname
    rw [Statement.target?_eq_some_iff.mpr hname, Option.some.injEq] at htarget
    rw [htarget, hget]
  refine answer_congr ?_ (fun name hupdated => hsame (Or.inr hupdated)) ?_
  · intro name p hassigned
    simp only [checkFree, hstrict, hsame (Or.inl hassigned)]
  · intro text p hevaluated
    rw [Statement.evaluated?_eq_value? htarget] at hevaluated
    exact evaluate_congr (fun e he => hvalue text p e hevaluated he)

end Answers

/-! ## 2. What a statement writes -/

section Settling

variable {env : Environment} {s : Statement} {target name : Text}

/-- **A name that is not read** can be bound without a difference to the answer. -/
theorem answer_settle (htarget : s.target? = some target) (hne : target ≠ name)
    (havoids : s.Avoids name) (answered : Except Error Value) :
    (env.settle (some name) answered).answer s = env.answer s := by
  cases answered with
  | error e => rfl
  | ok v =>
    refine answer_eq_of_agreeOn htarget rfl (env.get?_bind_other hne v) ?_
    intro text p e hvalue hparse
    exact env.agreeOn_bind (havoids text p e hvalue hparse) v

/-- Two different names can be bound in any order. -/
theorem settle_comm (hne : target ≠ name) (x y : Except Error Value) :
    SameBindings ((env.settle (some target) x).settle (some name) y)
      ((env.settle (some name) y).settle (some target) x) := by
  intro other
  cases x with
  | error e => rfl
  | ok v =>
    cases y with
    | error e => rfl
    | ok w =>
      simp only [settle, Option.elim_some]
      by_cases htarget : other = target
      · rw [htarget, get?_bind_same, get?_bind_other _ hne, get?_bind_same]
      · rw [get?_bind_other (env.bind name w) htarget]
        by_cases hname : other = name
        · rw [hname, get?_bind_same, get?_bind_same]
        · rw [get?_bind_other _ hname, get?_bind_other _ hname, get?_bind_other _ htarget]

end Settling

/-! ## 3. Two statements -/

/-- Two calls do the same in both orders: each one answers alike, and the bindings at the end are the
same. -/
structure Commute (env : Environment) (c d : Call) : Prop where
  bindings : SameBindings ((env.call c).1.call d).1 ((env.call d).1.call c).1
  left : (env.call c).2 = ((env.call d).1.call c).2
  right : ((env.call c).1.call d).2 = (env.call d).2

/-- **Statements that do not read each other's targets commute.** -/
theorem commute_of_disjoint (env : Environment) {text text' : Text} {line line' : Nat}
    {s s' : Statement} {target target' : Text} (hparse : Statement.parse text line = .ok s)
    (hparse' : Statement.parse text' line' = .ok s') (htarget : s.target? = some target)
    (htarget' : s'.target? = some target') (hne : target ≠ target') (havoids : s.Avoids target')
    (havoids' : s'.Avoids target) : Commute env (.line text line) (.line text' line') := by
  have hrun : ∀ env : Environment, env.call (.line text line)
      = (env.settle (some target) (env.answer s), (env.answer s).map some) := by
    intro env
    rw [call_of_executes (.line hparse), htarget]
  have hrun' : ∀ env : Environment, env.call (.line text' line')
      = (env.settle (some target') (env.answer s'), (env.answer s').map some) := by
    intro env
    rw [call_of_executes (.line hparse'), htarget']
  have hanswer : ∀ x, (env.settle (some target') x).answer s = env.answer s :=
    answer_settle htarget hne havoids
  have hanswer' : ∀ x, (env.settle (some target) x).answer s' = env.answer s' :=
    answer_settle htarget' (Ne.symm hne) havoids'
  constructor
  · rw [hrun, hrun', hrun', hrun, hanswer, hanswer']
    exact settle_comm hne _ _
  · rw [hrun', hrun, hrun, hanswer]
  · rw [hrun, hrun', hrun', hanswer']

namespace Example

/-- The statement `x=sin(e)` on the first line. -/
def sine : Statement := .assignment ['x'] "sin(e)".toList ⟨1, 3⟩ ⟨1, 1⟩

/-- The statement `sin=2*e` on the second line. -/
def rebound : Statement := .assignment "sin".toList "2*e".toList ⟨2, 5⟩ ⟨2, 1⟩

/-- The function that is called in one statement has the name of the other one's target. -/
theorem commute_sine :
    Statement.parse "x=sin(e)".toList 1 = .ok sine ∧
      Statement.parse "sin=2*e".toList 2 = .ok rebound ∧ sine.Avoids "sin".toList ∧
      rebound.Avoids ['x'] ∧
      Commute (fresh true) (.line "x=sin(e)".toList 1) (.line "sin=2*e".toList 2) := by
  have hsine : Statement.parse "x=sin(e)".toList 1 = .ok sine := by decide +kernel
  have hrebound : Statement.parse "sin=2*e".toList 2 = .ok rebound := by decide +kernel
  have hnames : (Expr.parse "sin(e)".toList ⟨1, 3⟩).map Expr.variableNames = .ok [['e']] := by
    decide +kernel
  have hnames' : (Expr.parse "2*e".toList ⟨2, 5⟩).map Expr.variableNames = .ok [['e']] := by
    decide +kernel
  have havoids : sine.Avoids "sin".toList := Statement.avoids_of_parse rfl hnames (by decide)
  have havoids' : rebound.Avoids ['x'] := Statement.avoids_of_parse rfl hnames' (by decide)
  exact ⟨hsine, hrebound, havoids, havoids',
    commute_of_disjoint (fresh true) hsine hrebound rfl rfl (by decide) havoids havoids'⟩

end Example

end Environment
end Abacus
