/-
# Sequences of steps that may fail

A step answers with a result or with an error, and a sequence of steps ends with the first error.  A run
over a list takes the same step for every item and collects the results.

Main statements:

* `bind_eq_ok`: a sequence that succeeds consists of steps that succeed;
* `length_of_mapM` and `mem_of_mapM`: what a run that succeeds has collected;
* `mapM_congr` and `foldlM_congr`: steps that do the same for the items of a list.
-/

namespace Abacus

/-! ## 1. One step after the other -/

section Bind

variable {ε α β : Type}

@[simp] theorem ok_bind (a : α) (f : α → Except ε β) : (Except.ok a >>= f) = f a := rfl

@[simp] theorem error_bind (e : ε) (f : α → Except ε β) :
    (Except.error e >>= f) = Except.error e := rfl

/-- A sequence that succeeds consists of steps that succeed. -/
theorem bind_eq_ok {x : Except ε α} {f : α → Except ε β} {b : β} (h : (x >>= f) = .ok b) :
    ∃ a, x = .ok a ∧ f a = .ok b := by
  cases x with
  | error e => cases h
  | ok a => exact ⟨a, rfl, h⟩

@[simp] theorem map_ok (f : α → β) (a : α) :
    Except.map f (Except.ok a : Except ε α) = .ok (f a) := rfl

@[simp] theorem map_error (f : α → β) (e : ε) :
    Except.map f (Except.error e : Except ε α) = .error e := rfl

theorem map_map {γ : Type} (f : α → β) (g : β → γ) (x : Except ε α) :
    (x.map f).map g = x.map (fun a => g (f a)) := by
  cases x <;> rfl

theorem map_eq_ok {x : Except ε α} {f : α → β} {b : β} (h : x.map f = .ok b) :
    ∃ a, x = .ok a ∧ f a = b := by
  cases x with
  | error e => cases h
  | ok a => exact ⟨a, rfl, by simpa using h⟩

/-- A step whose mapped outcome is an error has failed with that error. -/
theorem map_eq_error {x : Except ε α} {f : α → β} {e : ε} (h : x.map f = .error e) :
    x = .error e := by
  cases x with
  | error e' => simpa using h
  | ok a => cases h

end Bind

/-! ## 2. Runs over a list -/

section Runs

variable {ε α β : Type} {xs : List α}

/-- A run that succeeds has one result for each item. -/
theorem length_of_mapM {f : α → Except ε β} {ys : List β} (h : xs.mapM f = .ok ys) :
    ys.length = xs.length := by
  induction xs generalizing ys with
  | nil =>
    rw [List.mapM_nil] at h
    cases h
    rfl
  | cons x xs ih =>
    rw [List.mapM_cons] at h
    obtain ⟨y, -, hmore⟩ := bind_eq_ok h
    obtain ⟨zs, hzs, hdone⟩ := bind_eq_ok hmore
    cases hdone
    rw [List.length_cons, List.length_cons, ih hzs]

/-- Every result of a run that succeeds is the result of some item. -/
theorem mem_of_mapM {f : α → Except ε β} {ys : List β} (h : xs.mapM f = .ok ys) :
    ∀ y ∈ ys, ∃ x ∈ xs, f x = .ok y := by
  induction xs generalizing ys with
  | nil =>
    rw [List.mapM_nil] at h
    cases h
    rintro y ⟨⟩
  | cons x xs ih =>
    rw [List.mapM_cons] at h
    obtain ⟨z, hz, hmore⟩ := bind_eq_ok h
    obtain ⟨zs, hzs, hdone⟩ := bind_eq_ok hmore
    cases hdone
    intro y hy
    rcases List.mem_cons.mp hy with rfl | hmem
    · exact ⟨x, List.mem_cons_self, hz⟩
    · obtain ⟨x', hx', hy'⟩ := ih hzs y hmem
      exact ⟨x', List.mem_cons_of_mem x hx', hy'⟩

variable {m : Type → Type} [Monad m]

/-- Steps that do the same for every item of a list do the same for the list. -/
theorem mapM_congr [LawfulMonad m] {f g : α → m β} (h : ∀ x ∈ xs, f x = g x) :
    xs.mapM f = xs.mapM g := by
  induction xs with
  | nil => rfl
  | cons x xs ih =>
    obtain ⟨hx, hxs⟩ := List.forall_mem_cons.mp h
    rw [List.mapM_cons, List.mapM_cons, hx, ih hxs]

theorem foldlM_congr {f g : β → α → m β} (h : ∀ x ∈ xs, ∀ b, f b x = g b x) (start : β) :
    xs.foldlM f start = xs.foldlM g start := by
  induction xs generalizing start with
  | nil => rfl
  | cons x xs ih =>
    obtain ⟨hx, hxs⟩ := List.forall_mem_cons.mp h
    rw [List.foldlM_cons, List.foldlM_cons, hx]
    exact bind_congr fun next => ih hxs next

end Runs

end Abacus
