/-
# What the stack machine makes of any program

The machine executes whatever list of steps it is given, and it looks at nothing but the number of
operands on its stack.  This module says what that amounts to.  A program that is a tree in postfix
order can be taken apart in one way only, and the machine computes that tree.  Every other program
fails, and the reason is found at the first step that cannot be executed.

What the machine has on its stack stands for trees.  `listing trees` is the program that leaves the
values of `trees` on the stack, the first tree on top.  The steps that have been executed are always
the listing of trees whose values the stack holds, and this is the invariant of the run
(`accounts_runOn`).  So the failures can be said without the machine: `Stops` names the trees in
front of the step that fails.

Main statements:

* `eq_of_postorder_eq`: **unique readability**, two trees of numbers with one program are equal;
* `run_eq_ok_iff` and `run_eq_error_iff`: the programs that have a result, and those that fail;
* `runs_exactly_trees`: both for one program, by whether it is a tree in postfix order.
-/
import Abacus.Proofs.Postfix.Postorder

namespace Abacus
namespace Postfix

/-! ## 1. Unique readability -/

/-- The trees that a program builds on a stack of trees, if no operand is missing. -/
def assemble? : List Instruction → List Expr → Option (List Expr)
  | [], trees => some trees
  | ⟨.push x, p⟩ :: program, trees => assemble? program (.number x p :: trees)
  | ⟨.negate, p⟩ :: program, e :: trees => assemble? program (.negate e p :: trees)
  | ⟨.apply op, p⟩ :: program, r :: l :: trees => assemble? program (.binary op l r p :: trees)
  | _, _ => none

/-- A tree in postfix order builds that tree, whatever comes behind it and lies below it. -/
theorem assemble?_postorder : ∀ {e : Expr}, e.isGround = true → ∀ program trees,
    assemble? (e.postorder ++ program) trees = assemble? program (e :: trees)
  | .number x p, _, program, trees => rfl
  | .negate e p, hground, program, trees => by
    rw [Expr.postorder, List.append_assoc, assemble?_postorder (e := e) hground]
    rfl
  | .binary op l r p, hground, program, trees => by
    obtain ⟨hgl, hgr⟩ := Bool.and_eq_true_iff.mp hground
    rw [Expr.postorder, List.append_assoc, List.append_assoc, assemble?_postorder hgl,
      assemble?_postorder hgr]
    rfl

/-- The postfix order of a tree builds this one tree. -/
theorem assemble?_eq_some {e : Expr} {program : List Instruction} (hground : e.isGround = true)
    (h : e.postorder = program) : assemble? program [] = some [e] := by
  rw [← h, ← List.append_nil e.postorder, assemble?_postorder hground]
  rfl

/-- **Unique readability.**  A program is the postfix order of one tree at most. -/
theorem eq_of_postorder_eq {e e' : Expr} (h : e.isGround = true) (h' : e'.isGround = true)
    (heq : e.postorder = e'.postorder) : e = e' := by
  have hread := (assemble?_eq_some h heq).symm.trans (assemble?_eq_some h' rfl)
  simpa using hread

/-! ## 2. Trees with values -/

/-- A tree of numbers, negations and operators has the value `x`, in whatever environment. -/
structure HasValue (e : Expr) (x : Binary64) : Prop where
  isGround : e.isGround = true
  eval : ∀ env : Environment, env.eval e = .ok (.scalar x)

theorem hasValue_number (x : Binary64) (p : Position) : HasValue (.number x p) x where
  isGround := rfl
  eval := by
    intro env
    rw [Environment.eval]

theorem HasValue.negate {e : Expr} {x : Binary64} (h : HasValue e x) (p : Position) :
    HasValue (.negate e p) (-x) where
  isGround := h.isGround
  eval := by
    intro env
    rw [Environment.eval, h.eval]
    rfl

theorem HasValue.binary {l r : Expr} {x y z : Binary64} {op : Operator} {p : Position}
    (hl : HasValue l x) (hr : HasValue r y) (hz : Value.applyNumbers op x y p = .ok z) :
    HasValue (.binary op l r p) z where
  isGround := Bool.and_eq_true_iff.mpr ⟨hl.isGround, hr.isGround⟩
  eval := by
    intro env
    have hcombine : Value.combine op (.scalar x) (.scalar y) p
        = (Value.applyNumbers op x y p).map .scalar := rfl
    rw [Environment.eval, hl.eval, hr.eval, ok_bind, ok_bind, hcombine, hz, map_ok]

/-- The program of a tree leaves the value of the tree on the stack. -/
theorem HasValue.runOn_postorder {e : Expr} {x : Binary64} (h : HasValue e x) (finish : Position)
    (program : List Instruction) (stack : List Binary64) :
    runOn finish (e.postorder ++ program) stack = runOn finish program (x :: stack) := by
  obtain ⟨r, hr⟩ := computes_of_isGround h.isGround
  have hx : r = .ok x := by
    have heval := (hr.eval (.fresh false)).symm.trans (h.eval _)
    cases r with
    | error err => cases heval
    | ok y =>
      cases heval
      rfl
  rw [hr.run, hx, ok_bind]

/-! ## 3. Failures -/

/-- The program that leaves the values of the trees on the stack, the first one on top. -/
def listing : List Expr → List Instruction
  | [] => []
  | e :: below => listing below ++ e.postorder

/-- All of the trees have values. -/
def AllValued (trees : List Expr) : Prop := ∀ e ∈ trees, ∃ x, HasValue e x

/-- The program has a division or remainder in it whose operands are there, the divisor being zero,
and all that comes before it has values. -/
def DividesByZero (program : List Instruction) (err : Error) : Prop :=
  ∃ op l r y below rest, program = listing (r :: l :: below) ++ ⟨.apply op, err.position⟩ :: rest ∧
    AllValued (l :: below) ∧ HasValue r y ∧ y.isZero = true ∧
    Value.zeroDivisor? op = some err.cause

/-- Why a program whose text ends at `finish` has no result: the first step that cannot be executed
divides by zero or lacks an operand, or the whole program is executed and leaves no number or more
than one. -/
inductive Stops (finish : Position) : List Instruction → Error → Prop
  | zeroDivisor {program : List Instruction} {err : Error} :
      DividesByZero program err → Stops finish program err
  | noOperand {step : Instruction} {rest : List Instruction} :
      (∀ x, step.item ≠ .push x) → Stops finish (step :: rest) ⟨.unexpectedEndOfInput, finish⟩
  | oneOperand {e : Expr} {op : Operator} {p : Position} {rest : List Instruction} :
      AllValued [e] → Stops finish (e.postorder ++ ⟨.apply op, p⟩ :: rest) ⟨.unexpectedEndOfInput, p⟩
  | empty : Stops finish [] ⟨.unexpectedEndOfInput, finish⟩
  | leftOver {e e' : Expr} {below : List Expr} {x : Binary64} :
      HasValue e x → AllValued (e' :: below) →
        Stops finish (listing (e :: e' :: below)) ⟨.unexpectedTrailingInput x.render, finish⟩

/-! ## 4. The invariant of a run -/

/-- The stack holds the values of the trees. -/
abbrev Holds (trees : List Expr) (stack : List Binary64) : Prop := List.Forall₂ HasValue trees stack

theorem Holds.allValued {trees : List Expr} {stack : List Binary64} (h : Holds trees stack) :
    AllValued trees := by
  induction h with
  | nil => exact fun e he => nomatch he
  | cons hx _ ih => exact List.forall_mem_cons.mpr ⟨⟨_, hx⟩, ih⟩

theorem AllValued.exists_holds {trees : List Expr} (h : AllValued trees) :
    ∃ stack, Holds trees stack := by
  induction trees with
  | nil => exact ⟨[], .nil⟩
  | cons e trees ih =>
    obtain ⟨⟨x, hx⟩, hmore⟩ := List.forall_mem_cons.mp h
    obtain ⟨stack, hstack⟩ := ih hmore
    exact ⟨x :: stack, .cons hx hstack⟩

/-- A listing of trees with values is executed and leaves these values. -/
theorem Holds.runOn_listing {trees : List Expr} {stack : List Binary64} (h : Holds trees stack)
    (finish : Position) (program : List Instruction) :
    runOn finish (listing trees ++ program) [] = runOn finish program stack := by
  induction h generalizing program with
  | nil => rfl
  | cons hx _ ih => rw [listing, List.append_assoc, ih, hx.runOn_postorder]

/-- An operator with both operands on the stack. -/
theorem runOn_apply (finish : Position) (op : Operator) (p : Position) (program : List Instruction)
    (x y : Binary64) (stack : List Binary64) :
    runOn finish (⟨.apply op, p⟩ :: program) (y :: x :: stack)
      = Value.applyNumbers op x y p >>= fun z => runOn finish program (z :: stack) := by
  have hstep : step finish ⟨.apply op, p⟩ (y :: x :: stack)
      = Value.applyNumbers op x y p >>= fun z => .ok (z :: stack) := rfl
  rw [runOn, hstep]
  cases Value.applyNumbers op x y p <;> rfl

/-- An operator fails exactly if its divisor is zero. -/
theorem applyNumbers_eq_error_iff {op : Operator} {x y : Binary64} {p : Position} {err : Error} :
    Value.applyNumbers op x y p = .error err ↔
      err.position = p ∧ y.isZero = true ∧ Value.zeroDivisor? op = some err.cause := by
  obtain ⟨cause, q⟩ := err
  unfold Value.applyNumbers
  cases hop : Value.zeroDivisor? op with
  | none => simp
  | some c =>
    by_cases hy : y.isZero = true
    · simp [hy, eq_comm, and_comm]
    · simp [hy]

/-- What a run that has executed the listing of `trees` comes to: a result is the value of a tree
whose program has been run, and an error is a reason to stop. -/
def Accounts (finish : Position) (program : List Instruction) : Except Error Binary64 → Prop
  | .ok x => ∃ e, HasValue e x ∧ e.postorder = program
  | .error err => Stops finish program err

/-- **The invariant**, by induction on the steps that are left: those already executed are the listing
of trees whose values the stack holds. -/
theorem accounts_runOn (finish : Position) (program : List Instruction) {trees : List Expr}
    {stack : List Binary64} (h : Holds trees stack) :
    Accounts finish (listing trees ++ program) (runOn finish program stack) := by
  induction program generalizing trees stack with
  | nil =>
    rw [List.append_nil]
    cases h with
    | nil => exact .empty
    | @cons e x trees stack hx hmore =>
      cases hmore with
      | nil => exact ⟨e, hx, rfl⟩
      | cons hy hmore => exact .leftOver hx (Holds.allValued (.cons hy hmore))
  | cons step program ih =>
    obtain ⟨item, p⟩ := step
    cases item with
    | push x =>
      have hpushed := ih (.cons (hasValue_number x p) h)
      rw [listing, List.append_assoc] at hpushed
      exact hpushed
    | negate =>
      cases h with
      | nil => exact .noOperand (by simp)
      | @cons e x trees stack hx hmore =>
        have hnegated := ih (.cons (hx.negate p) hmore)
        rw [listing, Expr.postorder, List.append_assoc, List.append_assoc] at hnegated
        rw [listing, List.append_assoc]
        exact hnegated
    | apply op =>
      cases h with
      | nil => exact .noOperand (by simp)
      | @cons r y trees stack hy hmore =>
        cases hmore with
        | nil => exact .oneOperand (Holds.allValued (.cons hy .nil))
        | @cons l x trees stack hx hmore =>
          rw [runOn_apply]
          cases hz : Value.applyNumbers op x y p with
          | error err =>
            obtain ⟨rfl, hzero, hcause⟩ := applyNumbers_eq_error_iff.mp hz
            exact .zeroDivisor
              ⟨op, l, r, y, trees, program, rfl, Holds.allValued (.cons hx hmore), hy, hzero, hcause⟩
          | ok z =>
            have hdone := ih (.cons (hx.binary hy hz) hmore)
            rw [listing, Expr.postorder] at hdone
            simp only [listing, List.append_assoc, List.cons_append, List.nil_append] at hdone ⊢
            exact hdone

/-- What `Stops` describes is a failure. -/
theorem run_of_stops {finish : Position} {program : List Instruction} {err : Error}
    (h : Stops finish program err) : run program finish = .error err := by
  unfold run
  cases h with
  | zeroDivisor h =>
    obtain ⟨op, l, r, y, below, rest, rfl, hvalued, hr, hzero, hcause⟩ := h
    obtain ⟨stack, hstack⟩ := hvalued.exists_holds
    cases hstack with
    | @cons _ x _ stack hx hmore =>
      have hfails : Value.applyNumbers op x y err.position = .error err :=
        applyNumbers_eq_error_iff.mpr ⟨rfl, hzero, hcause⟩
      have hlisted : Holds (r :: l :: below) (y :: x :: stack) := .cons hr (.cons hx hmore)
      rw [hlisted.runOn_listing, runOn_apply, hfails, error_bind]
  | @noOperand step rest hitem =>
    obtain ⟨item, p⟩ := step
    cases item with
    | push x => exact absurd rfl (hitem x)
    | negate => rfl
    | apply op => rfl
  | oneOperand hvalued =>
    obtain ⟨x, hx⟩ := hvalued _ List.mem_cons_self
    rw [hx.runOn_postorder]
    rfl
  | empty => rfl
  | @leftOver e e' below x hx hvalued =>
    obtain ⟨stack, hstack⟩ := hvalued.exists_holds
    have hlisted : Holds (e :: e' :: below) (x :: stack) := .cons hx hstack
    rw [← List.append_nil (listing _), hlisted.runOn_listing]
    cases hstack
    rfl

/-! ## 5. Which programs have a result -/

variable {program : List Instruction} {finish : Position}

/-- A program has a result exactly if it is the postfix order of a tree with that value. -/
theorem run_eq_ok_iff {x : Binary64} :
    run program finish = .ok x ↔ ∃ e, HasValue e x ∧ e.postorder = program := by
  constructor
  · intro h
    have haccounts := accounts_runOn finish program .nil
    rw [← run, h] at haccounts
    exact haccounts
  · rintro ⟨e, he, rfl⟩
    rw [run, ← List.append_nil e.postorder, he.runOn_postorder]
    rfl

/-- A program fails exactly with the error at which it stops. -/
theorem run_eq_error_iff {err : Error} :
    run program finish = .error err ↔ Stops finish program err := by
  refine ⟨fun h => ?_, run_of_stops⟩
  have haccounts := accounts_runOn finish program .nil
  rw [← run, h] at haccounts
  exact haccounts

/-- The program of a tree can fail for no other reason than a zero divisor. -/
theorem dividesByZero_of_run {e : Expr} (hground : e.isGround = true) {err : Error}
    (h : run e.postorder finish = .error err) : DividesByZero e.postorder err := by
  obtain ⟨r, hr⟩ := computes_of_isGround hground
  have hrun : run e.postorder finish = r := by
    rw [run, ← List.append_nil e.postorder, hr.run]
    cases r <;> rfl
  have hcause := hr.zeroDivisorOnly err (hrun ▸ h)
  generalize hprogram : e.postorder = program at h ⊢
  cases run_eq_error_iff.mp h with
  | zeroDivisor hzero => exact hzero
  | noOperand => simp at hcause
  | oneOperand => simp at hcause
  | empty => simp at hcause
  | leftOver => simp at hcause

/-- **The machine runs the well-formed programs and no others.**  A program that is a tree in postfix
order is that of no other tree, and it has the outcome of the tree in every environment; it fails
exactly with the error of its first operator whose divisor is zero.  A program that is no tree in
postfix order has no result, and the first step that cannot be executed determines its error. -/
theorem runs_exactly_trees (program : List Instruction) (finish : Position) :
    (∀ e : Expr, e.isGround = true → e.postorder = program →
      (∀ e' : Expr, e'.isGround = true → e'.postorder = program → e' = e) ∧
        (∀ env : Environment, env.eval e = (run program finish).map .scalar) ∧
        ∀ err, run program finish = .error err ↔ DividesByZero program err) ∧
    ((∀ e : Expr, e.isGround = true → e.postorder ≠ program) →
      ∃ err, run program finish = .error err ∧ ∀ err', Stops finish program err' ↔ err' = err) := by
  constructor
  · rintro e hground rfl
    refine ⟨fun e' hground' heq => eq_of_postorder_eq hground' hground heq, ?_, ?_⟩
    · obtain ⟨r, hr⟩ := computes_of_isGround hground
      intro env
      rw [hr.eval, run, ← List.append_nil e.postorder, hr.run]
      cases r <;> rfl
    · exact fun err => ⟨dividesByZero_of_run hground, fun h => run_eq_error_iff.mpr (.zeroDivisor h)⟩
  · intro hnone
    cases hrun : run program finish with
    | ok x =>
      obtain ⟨e, he, hprogram⟩ := run_eq_ok_iff.mp hrun
      exact absurd hprogram (hnone e he.isGround)
    | error err =>
      refine ⟨err, rfl, fun err' => ?_⟩
      rw [← run_eq_error_iff, hrun, Except.error.injEq, eq_comm]

namespace Example

/-- The tree of `1/0`. -/
def quotient : Expr :=
  .binary .div (.number (digit '1') ⟨1, 1⟩) (.number (digit '0') ⟨1, 2⟩) ⟨1, 3⟩

/-- The program `1 0 /`. -/
def division : List Instruction :=
  [⟨.push (digit '1'), ⟨1, 1⟩⟩, ⟨.push (digit '0'), ⟨1, 2⟩⟩, ⟨.apply .div, ⟨1, 3⟩⟩]

theorem dividesByZero_division (rest : List Instruction) :
    DividesByZero (division ++ rest) ⟨.divisionByZero, ⟨1, 3⟩⟩ := by
  refine ⟨.div, .number (digit '1') ⟨1, 1⟩, .number (digit '0') ⟨1, 2⟩, digit '0', [], rest, rfl, ?_,
    hasValue_number _ _, by decide +kernel, rfl⟩
  exact List.forall_mem_singleton.mpr ⟨_, hasValue_number _ _⟩

/-- `1 0 /` and `1 0 / +` both fail at the division, although the second one is no tree: the sum that
lacks an operand comes later. -/
theorem runs_exactly_trees_division :
    quotient.isGround = true ∧ quotient.postorder = division ∧
      run division ⟨1, 5⟩ = .error ⟨.divisionByZero, ⟨1, 3⟩⟩ ∧
      (∀ e : Expr, e.isGround = true → e.postorder ≠ division ++ [⟨.apply .add, ⟨1, 4⟩⟩]) ∧
      run (division ++ [⟨.apply .add, ⟨1, 4⟩⟩]) ⟨1, 5⟩ = .error ⟨.divisionByZero, ⟨1, 3⟩⟩ := by
  have hnone : ∀ e : Expr, e.isGround = true →
      e.postorder ≠ division ++ [⟨.apply .add, ⟨1, 4⟩⟩] := by
    intro e hground h
    cases assemble?_eq_some hground h
  have htree := ((runs_exactly_trees division ⟨1, 5⟩).1 quotient rfl rfl).2.2
  obtain ⟨err, hrun, hstops⟩ := (runs_exactly_trees _ ⟨1, 5⟩).2 hnone
  have herr := (hstops _).mp (.zeroDivisor (dividesByZero_division _))
  refine ⟨rfl, rfl, ?_, hnone, herr ▸ hrun⟩
  exact (htree _).mpr (dividesByZero_division [])

end Example

end Postfix
end Abacus
