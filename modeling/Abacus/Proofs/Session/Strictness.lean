/-
# What strictness takes away

A strict environment refuses to bind a bound name a second time by plain assignment.  The check comes
before the value is evaluated, and it is made for lines and for assignments from outside alike, since
both run one assignment.  Nothing else that a statement does looks at strictness: values depend on the
bindings only, and updates pass the check by.  No phase of an expression reports a refused binding, so
that error tells apart what strictness takes away.

A strict and a default session with the same bindings therefore go in lockstep up to the first refusal,
by an induction on the calls with "the same bindings" as the invariant.  A refusal leaves the bindings
as they are, so the value of a bound name changes by updates only.

Main statements:

* `answer_redeclaration_iff`: which statements are refused;
* `answer_eq_of_unrefused`: a statement that is not refused answers alike without strictness;
* `executes_or_fails`: lines and assignments from outside are statements;
* `call_eq_error`: a call that fails, and so one that is refused, leaves everything as it was;
* `strict_session`: what this means for sessions, with its parts in `StrictSession`.
-/
import Abacus.Proofs.Evaluation.Quotes
import Abacus.Proofs.Evaluation.Variables
import Abacus.Proofs.Session.Invariant

namespace Abacus

/-! ## 1. Assignments and updates -/

namespace Call

/-- The call is a line or an assignment, and not a whole script. -/
def isStep : Call → Bool
  | .line _ _ => true
  | .assign _ _ => true
  | .script _ => false

/-- The call is a plain assignment to the name: a line that is one, or an assignment from outside to
an identifier. -/
inductive Assigns : Call → Text → Prop
  | line {text name : Text} {number : Nat} {s : Statement} :
      Statement.parse text number = .ok s → s.assigned? = some name →
        Assigns (.line text number) name
  | assign {name value : Text} : name.isIdentifier = true → Assigns (.assign name value) name

/-- The call is a line that updates the name. -/
inductive Updates : Call → Text → Prop
  | line {text name : Text} {number : Nat} {s : Statement} :
      Statement.parse text number = .ok s → s.updated? = some name →
        Updates (.line text number) name

variable {c : Call} {s : Statement} {name : Text}

theorem Executes.assigns (h : c.Executes s) (hassigned : s.assigned? = some name) :
    c.Assigns name := by
  cases h with
  | line hparse => exact .line hparse hassigned
  | assign hname =>
    cases hassigned
    exact .assign hname

theorem Assigns.executes (h : c.Assigns name) : ∃ s, c.Executes s ∧ s.assigned? = some name := by
  cases h with
  | line hparse hassigned => exact ⟨_, .line hparse, hassigned⟩
  | assign hname => exact ⟨_, .assign hname, rfl⟩

theorem Executes.updates (h : c.Executes s) (hupdated : s.updated? = some name) : c.Updates name := by
  cases h with
  | line hparse => exact .line hparse hupdated
  | assign hname => cases hupdated

end Call

namespace Environment

/-- The run was refused: it ended with the error for a second binding. -/
def ScriptRun.isRefused (run : ScriptRun) : Bool :=
  match run.2 with
  | .ok _ => false
  | .error e => e.kind = .redeclaration

/-! ## 2. What is refused -/

section Refused

variable {env : Environment}

theorem checkFree_of_bound (hstrict : env.strict = true) {name : Text}
    (hbound : (env.get? name).isSome = true) (p : Position) :
    env.checkFree name p = .error ⟨.redeclaration name, p⟩ := by
  simp [checkFree, hstrict, hbound]

theorem checkFree_of_free {name : Text} (h : env.strict = true → (env.get? name).isSome = false)
    (p : Position) : env.checkFree name p = .ok () := by
  cases hstrict : env.strict with
  | true => simp [checkFree, h hstrict]
  | false => simp [checkFree, hstrict]

/-- No expression is refused. -/
theorem raises_evaluate_unrefused (env : Environment) (text : Text) (p : Position) :
    Raises (fun e => e.kind ≠ .redeclaration) (env.evaluate text p) :=
  (env.raises_expressionCause text p).mono (fun _ h => Cause.kind_ne_redeclaration h.phase)

/-- Only plain assignments to bound names are refused, and only where the environment is strict. -/
theorem raises_answer_unrefused {s : Statement}
    (h : ∀ name, s.assigned? = some name → env.strict = true → (env.get? name).isSome = false) :
    Raises (fun e => e.kind ≠ .redeclaration) (env.answer s) := by
  have hlookup : ∀ name p, Raises (fun e => e.kind ≠ .redeclaration) (env.lookup name p) :=
    fun name p => (env.raises_lookup name p).mono
      (fun _ h => Cause.kind_ne_redeclaration (Or.inr (Or.inr h.phase)))
  cases s with
  | expression text p => exact env.raises_evaluate_unrefused text p
  | assignment name value p q =>
    rw [answer, checkFree_of_free (h name rfl), ok_bind]
    exact env.raises_evaluate_unrefused value p
  | compound name op value p q =>
    refine (hlookup name q).bind (fun old => ?_)
    refine (env.raises_evaluate_unrefused value p).bind (fun operand => ?_)
    exact (Value.raises_combine op q old operand).mono
      (fun _ h => Cause.kind_ne_redeclaration (Or.inr (Or.inr h.phase)))
  | increment name p => exact (hlookup name p).bind (fun _ => raises_ok _)
  | decrement name p => exact (hlookup name p).bind (fun _ => raises_ok _)

/-- A plain assignment to a bound name is refused, whatever its value would be. -/
theorem answer_refused (hstrict : env.strict = true) {s : Statement} {name : Text}
    (hassigned : s.assigned? = some name) (hbound : (env.get? name).isSome = true) :
    ∃ p, env.answer s = .error ⟨.redeclaration name, p⟩ := by
  cases s with
  | assignment target value p q =>
    cases hassigned
    exact ⟨q, by rw [answer, checkFree_of_bound hstrict hbound, error_bind]⟩
  | _ => cases hassigned

/-- **What is refused**: the plain assignments to bound names. -/
theorem answer_redeclaration_iff (hstrict : env.strict = true) (s : Statement) :
    (∃ e, env.answer s = .error e ∧ e.kind = .redeclaration)
      ↔ ∃ name, s.assigned? = some name ∧ (env.get? name).isSome = true := by
  constructor
  · rintro ⟨e, hanswer, hkind⟩
    by_contra hnone
    have hfree : ∀ name, s.assigned? = some name → env.strict = true →
        (env.get? name).isSome = false := by
      intro name hname _
      by_contra hbound
      exact hnone ⟨name, hname, eq_true_of_ne_false hbound⟩
    exact raises_answer_unrefused hfree e hanswer hkind
  · rintro ⟨name, hassigned, hbound⟩
    obtain ⟨p, hanswer⟩ := answer_refused hstrict hassigned hbound
    exact ⟨_, hanswer, rfl⟩

theorem isRefused_iff {run : ScriptRun} :
    run.isRefused = true ↔ ∃ e, run.2 = .error e ∧ e.kind = .redeclaration := by
  obtain ⟨after, _ | _⟩ := run <;> simp [ScriptRun.isRefused]

/-- A call that is no script executes a statement, or it is not even one, whatever names are bound. -/
theorem executes_or_fails {c : Call} (hstep : c.isStep = true) :
    (∃ s, c.Executes s) ∨
      ∃ e, e.kind = .invalidAssignmentTarget ∧ ∀ env : Environment, env.call c = (env, .error e) := by
  cases c with
  | line text number =>
    cases hparse : Statement.parse text number with
    | ok s => exact Or.inl ⟨s, .line hparse⟩
    | error e =>
      refine Or.inr ⟨e, by rw [Statement.eq_of_parse_error hparse]; rfl, fun env => ?_⟩
      rw [call, executeLine_of_parse_error hparse]
      rfl
  | assign name value =>
    by_cases hname : name.isIdentifier = true
    · exact Or.inl ⟨_, .assign hname⟩
    · refine Or.inr ⟨⟨.invalidAssignmentTarget name, .inLine 1 0⟩, rfl, fun env => ?_⟩
      rw [call, assign_of_not_isIdentifier hname]
      rfl
  | script source => cases hstep

/-- **Which calls are refused**: the plain assignments to bound names. -/
theorem isRefused_call (hstrict : env.strict = true) {c : Call} (hstep : c.isStep = true) :
    (env.call c).isRefused = true
      ↔ ∃ name, c.Assigns name ∧ (env.get? name).isSome = true := by
  rw [isRefused_iff]
  constructor
  · rintro ⟨e, herror, hkind⟩
    rcases executes_or_fails hstep with ⟨s, hs⟩ | ⟨e', hkind', hcall⟩
    · rw [call_of_executes hs] at herror
      obtain ⟨name, hassigned, hbound⟩ :=
        (answer_redeclaration_iff hstrict s).mp ⟨e, map_eq_error herror, hkind⟩
      exact ⟨name, hs.assigns hassigned, hbound⟩
    · rw [hcall] at herror
      cases herror
      rw [hkind'] at hkind
      cases hkind
  · rintro ⟨name, hassigns, hbound⟩
    obtain ⟨s, hs, hassigned⟩ := hassigns.executes
    obtain ⟨e, hanswer, hkind⟩ := (answer_redeclaration_iff hstrict s).mpr ⟨name, hassigned, hbound⟩
    refine ⟨e, ?_, hkind⟩
    rw [call_of_executes hs, hanswer]
    rfl

/-- **A call that fails leaves the environment as it is.** -/
theorem call_eq_error {c : Call} (hstep : c.isStep = true) {after : Environment} {e : Error}
    (h : env.call c = (after, .error e)) : after = env := by
  cases c with
  | line text number => exact executeLine_eq_error (Run.map_eq_error h)
  | assign name value => exact assign_eq_error (Run.map_eq_error h)
  | script source => cases hstep

/-- A call that is refused leaves the environment as it is. -/
theorem call_of_isRefused {c : Call} (hstep : c.isStep = true)
    (hrefused : (env.call c).isRefused = true) : (env.call c).1 = env := by
  obtain ⟨e, herror, -⟩ := isRefused_iff.mp hrefused
  exact call_eq_error hstep (Prod.ext rfl herror)

end Refused

/-! ## 3. Without strictness -/

section Lenient

variable {a b : Environment}

/-- Two runs with the same answer and the same bindings. -/
def SameRun (r r' : ScriptRun) : Prop := SameBindings r.1 r'.1 ∧ r.2 = r'.2

/-- What is answered alike is settled alike. -/
theorem SameBindings.settle (h : SameBindings a b) (target? : Option Text)
    (answered : Except Error Value) :
    SameBindings (a.settle target? answered) (b.settle target? answered) := by
  cases answered with
  | error e => exact h
  | ok v =>
    cases target? with
    | none => exact h
    | some target => exact h.bind target v

/-- **A statement that is not refused** answers alike without strictness. -/
theorem answer_eq_of_unrefused (h : SameBindings a b) (hlenient : b.strict = false) {s : Statement}
    (hunrefused : Raises (fun e => e.kind ≠ .redeclaration) (a.answer s)) :
    a.answer s = b.answer s := by
  refine answer_congr ?_ (fun name _ => h name)
    (fun text p _ => evaluate_congr (fun e _ => h.agreeOn e.variableNames))
  intro name p hassigned
  have hfree : a.strict = true → (a.get? name).isSome = false := by
    intro hstrict
    by_contra hbound
    obtain ⟨p, hrefused⟩ := answer_refused hstrict hassigned (eq_true_of_ne_false hbound)
    exact hunrefused _ hrefused rfl
  rw [checkFree_of_free hfree, checkFree_of_free (by simp [hlenient])]

/-- A call that is not refused does the same without strictness. -/
theorem sameRun_call (h : SameBindings a b) (hlenient : b.strict = false) {c : Call}
    (hstep : c.isStep = true) (hunrefused : (a.call c).isRefused = false) :
    SameRun (a.call c) (b.call c) := by
  rcases executes_or_fails hstep with ⟨s, hs⟩ | ⟨e, -, hcall⟩
  · rw [call_of_executes hs] at hunrefused ⊢
    have hraises : Raises (fun e => e.kind ≠ .redeclaration) (a.answer s) := by
      intro e hanswer hkind
      rw [hanswer, isRefused_iff.mpr ⟨e, rfl, hkind⟩] at hunrefused
      cases hunrefused
    rw [call_of_executes hs, answer_eq_of_unrefused h hlenient hraises]
    exact ⟨h.settle _ _, rfl⟩
  · rw [hcall, hcall]
    exact ⟨h, rfl⟩

end Lenient

/-! ## 4. Sessions -/

/-- The runs before the first one that is refused. -/
def unrefused (runs : List ScriptRun) : List ScriptRun := runs.takeWhile (fun run => !run.isRefused)

/-- The session of single statements answers one call after the other. -/
theorem session_cons {c : Call} (hstep : c.isStep = true) (env : Environment) (calls : List Call) :
    env.session (c :: calls) = env.call c :: (env.call c).1.session calls := by
  cases c with
  | script source => cases hstep
  | _ => rfl

theorem strict_call (env : Environment) (c : Call) : (env.call c).1.strict = env.strict :=
  call_preserves (P := fun after => after.strict = env.strict) (fun _ _ _ _ h => h) rfl c

/-- **Lockstep**: up to the first refusal, a strict session is one without strictness. -/
theorem forall₂_unrefused {calls : List Call} {s d : Environment} (h : SameBindings s d)
    (hlenient : d.strict = false) (hcalls : ∀ c ∈ calls, c.isStep = true) :
    List.Forall₂ SameRun (unrefused (s.session calls))
      ((d.session calls).take (unrefused (s.session calls)).length) := by
  induction calls generalizing s d with
  | nil => exact .nil
  | cons c calls ih =>
    obtain ⟨hstep, hmore⟩ := List.forall_mem_cons.mp hcalls
    unfold unrefused
    rw [session_cons hstep, session_cons hstep]
    cases hrefused : (s.call c).isRefused with
    | true =>
      rw [List.takeWhile_cons_of_neg (by simp [hrefused])]
      exact .nil
    | false =>
      have hrun := sameRun_call h hlenient hstep hrefused
      rw [List.takeWhile_cons_of_pos (by simp [hrefused])]
      exact .cons hrun (ih hrun.1 (by rw [strict_call, hlenient]) hmore)

/-- In a strict environment, a statement changes the value of a bound name only if it updates it. -/
theorem get?_settle {env : Environment} (hstrict : env.strict = true) {s : Statement} {name : Text}
    {v : Value} (hget : env.get? name = some v) (hupdated : s.updated? ≠ some name) :
    (env.settle s.target? (env.answer s)).get? name = some v := by
  cases hanswer : env.answer s with
  | error e => exact hget
  | ok w =>
    cases htarget : s.target? with
    | none => exact hget
    | some target =>
      rw [settle, Option.elim_some]
      by_cases hname : name = target
      · subst hname
        rcases Statement.target?_eq_some_iff.mp htarget with hassigned | hupdates
        · obtain ⟨p, hrefused⟩ := answer_refused hstrict hassigned (by rw [hget]; rfl)
          rw [hanswer] at hrefused
          cases hrefused
        · exact absurd hupdates hupdated
      · rw [get?_bind_other env hname, hget]

/-- In a strict environment, a call changes the value of a bound name only if it updates it. -/
theorem get?_call {env : Environment} (hstrict : env.strict = true) {c : Call}
    (hstep : c.isStep = true) {name : Text} {v : Value} (hget : env.get? name = some v)
    (hupdates : ¬ c.Updates name) : (env.call c).1.get? name = some v := by
  rcases executes_or_fails hstep with ⟨s, hs⟩ | ⟨e, -, hcall⟩
  · rw [call_of_executes hs]
    exact get?_settle hstrict hget (fun h => hupdates (hs.updates h))
  · rw [hcall]
    exact hget

/-- A bound name keeps its value as long as no call updates it. -/
theorem get?_environments {calls : List Call} {env : Environment} (hstrict : env.strict = true)
    (hcalls : ∀ c ∈ calls, c.isStep = true) {name : Text} {v : Value}
    (hget : env.get? name = some v) (hupdates : ∀ c ∈ calls, ¬ c.Updates name) :
    ∀ after ∈ env.environments calls, after.get? name = some v := by
  induction calls generalizing env with
  | nil => exact List.forall_mem_singleton.mpr hget
  | cons c calls ih =>
    obtain ⟨hstep, hsteps⟩ := List.forall_mem_cons.mp hcalls
    obtain ⟨hfirst, hmore⟩ := List.forall_mem_cons.mp hupdates
    have hnext : (env.call c).1.strict = true := by rw [strict_call, hstrict]
    unfold environments
    rw [session_cons hstep, List.map_cons]
    exact List.forall_mem_cons.mpr ⟨hget, ih hnext hsteps (get?_call hstrict hstep hget hfirst) hmore⟩

/-- What strictness means for a strict session `s` and a default session `d` of the same calls. -/
structure StrictSession (s d : Environment) (calls : List Call) : Prop where
  /-- Up to the first refusal, the answers and the bindings are the same. -/
  lockstep : List.Forall₂ SameRun (unrefused (s.session calls))
    ((d.session calls).take (unrefused (s.session calls)).length)
  /-- At every moment, the plain assignments to bound names are refused, and nothing else is. -/
  refused : ∀ env ∈ s.environments calls, ∀ c : Call, c.isStep = true →
    ((env.call c).isRefused = true ↔ ∃ name, c.Assigns name ∧ (env.get? name).isSome = true)
  /-- A refusal leaves everything as it was. -/
  unchanged : ∀ env ∈ s.environments calls, ∀ c : Call, c.isStep = true →
    (env.call c).isRefused = true → (env.call c).1 = env
  /-- At every moment, the value of a bound name changes by an update of that name only. -/
  changed : ∀ env ∈ s.environments calls, ∀ c : Call, c.isStep = true → ∀ name v,
    env.get? name = some v → (env.call c).1.get? name ≠ some v → c.Updates name
  /-- A bound name that no call updates keeps its value. -/
  kept : ∀ name v, s.get? name = some v → (∀ c ∈ calls, ¬ c.Updates name) →
    ∀ env ∈ s.environments calls, env.get? name = some v

/-- **Strictness only removes plain reassignments.** -/
theorem strict_session {s d : Environment} (hstrict : s.strict = true) (hlenient : d.strict = false)
    (h : SameBindings s d) {calls : List Call} (hcalls : ∀ c ∈ calls, c.isStep = true) :
    StrictSession s d calls := by
  have hall : ∀ env ∈ s.environments calls, env.strict = true :=
    session_preserves (P := fun env => env.strict = true) (fun _ _ _ _ h => h) hstrict calls
  constructor
  · exact forall₂_unrefused h hlenient hcalls
  · intro env henv c hstep
    exact isRefused_call (hall env henv) hstep
  · intro env _ c hstep hrefused
    exact call_of_isRefused hstep hrefused
  · intro env henv c hstep name v hget hchanged
    by_contra hupdates
    exact hchanged (get?_call (hall env henv) hstep hget hupdates)
  · intro name v hget hupdates
    exact get?_environments hstrict hcalls hget hupdates

namespace Example

/-- A new name is bound, updated, and then refused to an assignment whose value has no meaning. -/
def reassigning : List Call :=
  [.line "x=1".toList 1, .line "x+=1".toList 2, .assign ['x'] "1/0".toList, .line "y=x".toList 3]

theorem strict_session_reassigning :
    (fresh true).strict = true ∧ (fresh false).strict = false ∧
      SameBindings (fresh true) (fresh false) ∧ (∀ c ∈ reassigning, c.isStep = true) ∧
      StrictSession (fresh true) (fresh false) reassigning ∧
      (unrefused ((fresh true).session reassigning)).length = 2 := by
  have hsame : SameBindings (fresh true) (fresh false) := fun _ => rfl
  have hsteps : ∀ c ∈ reassigning, c.isStep = true := List.all_eq_true.mp rfl
  exact ⟨rfl, rfl, hsame, hsteps, strict_session rfl rfl hsame hsteps, by decide +kernel⟩

end Example

end Environment
end Abacus
