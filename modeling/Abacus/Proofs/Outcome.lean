/-
# Outcomes of steps that may fail

A step answers with a result or with an error.  This module compares outcomes of different steps in the
three ways in which the calculator needs them compared:

* `SameOutcome`: the results are equal, or the errors have one cause and perhaps two positions;
* `OrTooDeep`: the outcomes are equal, or the first one is the error of an exceeded limit;
* `Corresponds R r`: the results are related by `r`, or the errors have one cause and their positions
  are related by `R`.

`Raises P` speaks of one step: if it fails, it fails with an error of the class `P`.

Main statements: `SameOutcome.bind`, `OrTooDeep.bind`, `Corresponds.bind` and `Raises.bind`: the
comparisons and the class pass from steps to sequences of steps.
-/
import Abacus.Error
import Abacus.Sequencing

namespace Abacus

/-! ## 1. Equal results or equal causes -/

section SameOutcome

variable {α β : Type}

/-- Both succeed with the same result, or both fail for the same cause. -/
def SameOutcome : Except Error α → Except Error α → Prop
  | .ok a, .ok b => a = b
  | .error e, .error f => e.cause = f.cause
  | _, _ => False

theorem SameOutcome.refl (x : Except Error α) : SameOutcome x x := by
  cases x <;> rfl

theorem SameOutcome.trans {x y z : Except Error α} (h : SameOutcome x y) (h' : SameOutcome y z) :
    SameOutcome x z := by
  cases x <;> cases y <;> simp only [SameOutcome] at h
  · cases z <;> simp only [SameOutcome] at h' ⊢
    exact h.trans h'
  · subst h
    exact h'

theorem SameOutcome.bind {x y : Except Error α} {f g : α → Except Error β}
    (h : SameOutcome x y) (hfg : ∀ a, SameOutcome (f a) (g a)) :
    SameOutcome (x >>= f) (y >>= g) := by
  cases x <;> cases y <;> simp only [SameOutcome] at h
  · exact h
  · subst h
    exact hfg _

theorem SameOutcome.map {x y : Except Error α} (f : α → β) (h : SameOutcome x y) :
    SameOutcome (x.map f) (y.map f) := by
  cases x <;> cases y <;> simp only [SameOutcome] at h
  · exact h
  · exact congrArg f h

/-- The two ways in which outcomes can be the same. -/
theorem SameOutcome.cases {x y : Except Error α} (h : SameOutcome x y) :
    (∃ a, x = .ok a ∧ y = .ok a) ∨
      ∃ e f, x = .error e ∧ y = .error f ∧ e.kind = f.kind := by
  cases x <;> cases y <;> simp only [SameOutcome] at h
  · exact Or.inr ⟨_, _, rfl, rfl, congrArg Cause.kind h⟩
  · subst h
    exact Or.inl ⟨_, rfl, rfl⟩

end SameOutcome

/-! ## 2. Limits -/

section OrTooDeep

variable {α β : Type}

/-- The outcome under a limit is the outcome without it, or the error of the limit. -/
def OrTooDeep (limited unlimited : Except Error α) : Prop :=
  limited = unlimited ∨ ∃ p, limited = .error ⟨.nestingTooDeep, p⟩

theorem OrTooDeep.refl (x : Except Error α) : OrTooDeep x x := Or.inl rfl

theorem OrTooDeep.error (p : Position) (y : Except Error α) :
    OrTooDeep (.error ⟨.nestingTooDeep, p⟩) y := Or.inr ⟨p, rfl⟩

theorem OrTooDeep.bind {x y : Except Error α} {f g : α → Except Error β}
    (h : OrTooDeep x y) (hfg : ∀ a, OrTooDeep (f a) (g a)) : OrTooDeep (x >>= f) (y >>= g) := by
  rcases h with rfl | ⟨p, rfl⟩
  · cases x with
    | error e => exact .refl _
    | ok a => exact hfg a
  · exact .error p _

end OrTooDeep

/-! ## 3. Related results or related positions -/

section Corresponds

variable {α β γ δ : Type} {R : Position → Position → Prop} {r : α → β → Prop}

/-- Both succeed with results that `r` relates, or both fail for one cause at positions that `R`
relates. -/
def Corresponds (R : Position → Position → Prop) (r : α → β → Prop) :
    Except Error α → Except Error β → Prop
  | .ok a, .ok b => r a b
  | .error e, .error f => e.cause = f.cause ∧ R e.position f.position
  | _, _ => False

/-- The same error at two related places. -/
theorem corresponds_error {p q : Position} (hR : R p q) (cause : Cause) (r : α → β → Prop) :
    Corresponds R r (.error ⟨cause, p⟩) (.error ⟨cause, q⟩) := ⟨rfl, hR⟩

theorem Corresponds.bind {s : γ → δ → Prop} {x : Except Error α} {y : Except Error β}
    {f : α → Except Error γ} {g : β → Except Error δ} (h : Corresponds R r x y)
    (hfg : ∀ a b, r a b → Corresponds R s (f a) (g b)) : Corresponds R s (x >>= f) (y >>= g) := by
  cases x <;> cases y <;> simp only [Corresponds] at h
  · exact h
  · exact hfg _ _ h

theorem Corresponds.mono {s : α → β → Prop} {x : Except Error α} {y : Except Error β}
    (h : Corresponds R r x y) (hrs : ∀ a b, r a b → s a b) : Corresponds R s x y := by
  cases x <;> cases y <;> simp only [Corresponds] at h
  · exact h
  · exact hrs _ _ h

theorem Corresponds.map {s : γ → δ → Prop} {x : Except Error α} {y : Except Error β} {f : α → γ}
    {g : β → δ} (h : Corresponds R r x y) (hfg : ∀ a b, r a b → s (f a) (g b)) :
    Corresponds R s (x.map f) (y.map g) := by
  cases x <;> cases y <;> simp only [Corresponds] at h
  · exact h
  · exact hfg _ _ h

/-- The two ways in which outcomes can correspond. -/
theorem Corresponds.cases {x : Except Error α} {y : Except Error β} (h : Corresponds R r x y) :
    (∃ a b, x = .ok a ∧ y = .ok b ∧ r a b) ∨
      ∃ cause p q, x = .error ⟨cause, p⟩ ∧ y = .error ⟨cause, q⟩ ∧ R p q := by
  cases x with
  | error e =>
    cases y with
    | error f =>
      obtain ⟨hcause, hposition⟩ := h
      exact Or.inr ⟨e.cause, e.position, f.position, rfl, by rw [hcause], hposition⟩
    | ok b => cases h
  | ok a =>
    cases y with
    | error f => cases h
    | ok b => exact Or.inl ⟨a, b, rfl, rfl, h⟩

/-- Runs of steps with corresponding outcomes have corresponding outcomes. -/
theorem corresponds_mapM {f g : α → Except Error γ}
    (h : ∀ a, Corresponds R Eq (f a) (g a)) (as : List α) :
    Corresponds R Eq (as.mapM f) (as.mapM g) := by
  induction as with
  | nil => exact rfl
  | cons a as ih =>
    rw [List.mapM_cons, List.mapM_cons]
    refine (h a).bind ?_
    rintro b _ rfl
    refine ih.bind ?_
    rintro bs _ rfl
    exact rfl

/-- Where all positions are related, only the cause of an error counts. -/
theorem Corresponds.sameOutcome {x y : Except Error α} (h : Corresponds R Eq x y) :
    SameOutcome x y := by
  cases x <;> cases y <;> simp only [Corresponds] at h
  · exact h.1
  · exact h

/-- Where each position is made from the other one, so is the outcome. -/
theorem Corresponds.eq_mapError {f : Position → Position} {x y : Except Error α}
    (h : Corresponds (fun p q => p = f q) Eq x y) :
    x = y.mapError (fun e => ⟨e.cause, f e.position⟩) := by
  rcases h.cases with ⟨a, _, rfl, rfl, rfl⟩ | ⟨cause, _, q, rfl, rfl, rfl⟩
  · rfl
  · rfl

end Corresponds

/-! ## 4. Possible errors -/

section Raises

variable {α β : Type} {P : Error → Prop}

/-- The step succeeds, or it fails with an error of the class. -/
def Raises (P : Error → Prop) (x : Except Error α) : Prop := ∀ e, x = .error e → P e

theorem raises_ok (a : α) : Raises P (.ok a) := by
  rintro e ⟨⟩

theorem raises_error {e : Error} (h : P e) : Raises P (.error e : Except Error α) := by
  rintro _ ⟨⟩
  exact h

theorem Raises.mono {Q : Error → Prop} {x : Except Error α} (hx : Raises P x)
    (hPQ : ∀ e, P e → Q e) : Raises Q x :=
  fun e he => hPQ e (hx e he)

theorem Raises.bind {x : Except Error α} {f : α → Except Error β} (hx : Raises P x)
    (hf : ∀ a, Raises P (f a)) : Raises P (x >>= f) := by
  cases x with
  | error e =>
    rintro e' ⟨⟩
    exact hx e rfl
  | ok a => exact hf a

theorem Raises.map {x : Except Error α} (hx : Raises P x) (f : α → β) : Raises P (x.map f) := by
  cases x with
  | error e =>
    rintro e' ⟨⟩
    exact hx e rfl
  | ok a => exact raises_ok _

/-- A run over a list fails only where one of its steps fails. -/
theorem raises_mapM {f : α → Except Error β} (hf : ∀ a, Raises P (f a)) (as : List α) :
    Raises P (as.mapM f) := by
  induction as with
  | nil => exact raises_ok _
  | cons a as ih =>
    rw [List.mapM_cons]
    exact (hf a).bind (fun _ => ih.bind (fun _ => raises_ok _))

end Raises

end Abacus
