/-
# What holds throughout a session

A session is a list of calls: single lines, assignments from outside, and scripts.  All of them come
down to lines and assignments one after the other, and each of these, whether it fails or not, leaves
the environment as it is or binds an identifier (`fst_executeLine`, `fst_assign`).  So a property that
binding an identifier preserves holds of every environment of a session, also of those in the middle
of a script (`runLines_preserves`).  Both properties of interest are of this kind: that an environment
is `Sound`, and that it `Keeps` the names of an earlier one.

What is asked of values holds of every value by its type.  The steps that rely on it are those of
`Proofs/Value/Checked`.

Main statement: `session_invariant`.
-/
import Abacus.Proofs.Session.Scripts
import Abacus.Proofs.Value.Checked

namespace Abacus

open Text (lines firstLines)

/-! ## 1. Sessions -/

/-- What is asked of an environment from outside. -/
inductive Call where
  /-- One line is executed as a line with a number. -/
  | line (text : Text) (number : Nat)
  /-- The value of a text is bound to a name. -/
  | assign (name value : Text)
  /-- A script is run. -/
  | script (source : Text)

/-- The statement that a call executes: the one in its line, or an assignment from outside to an
identifier. -/
inductive Call.Executes : Call → Statement → Prop
  | line {text : Text} {number : Nat} {s : Statement} :
      Statement.parse text number = .ok s → Executes (.line text number) s
  | assign {name value : Text} : name.isIdentifier = true →
      Executes (.assign name value) (.assignment name value (.inLine 1 0) (.inLine 1 0))

namespace Environment

/-- What a call answers with and leaves behind. -/
def call (env : Environment) : Call → ScriptRun
  | .line text number => Run.map some (env.executeLine text number)
  | .assign name value => Run.map some (env.assign name value)
  | .script source => env.runScript source

/-- A call that executes a statement answers with what the statement answers with, and settles it. -/
theorem call_of_executes {c : Call} {s : Statement} (h : c.Executes s) (env : Environment) :
    env.call c = (env.settle s.target? (env.answer s), (env.answer s).map some) := by
  cases h with
  | line hparse =>
    rw [call, executeLine_of_parse hparse]
    rfl
  | assign hname =>
    rw [call, assign_of_isIdentifier hname, run_execute]
    rfl

/-- What a call has done on the way: a script has run its first lines. -/
def partway (env : Environment) : Call → List ScriptRun
  | .script source => (List.range (lines source).length).map
      (fun n => env.runScript (firstLines n source))
  | _ => []

/-- Everything that is answered and left behind in a session, one after the other. -/
def session (env : Environment) : List Call → List ScriptRun
  | [] => []
  | c :: calls => env.partway c ++ env.call c :: (env.call c).1.session calls

/-- The environments of a session, from the first one on. -/
def environments (env : Environment) (calls : List Call) : List Environment :=
  env :: (env.session calls).map Prod.fst

theorem environments_cons (env : Environment) (c : Call) (calls : List Call) :
    env.environments (c :: calls)
      = env :: ((env.partway c).map Prod.fst ++ (env.call c).1.environments calls) := by
  unfold environments
  rw [session, List.map_append, List.map_cons]

/-! ## 2. What binding an identifier preserves -/

section Preserves

variable {P : Environment → Prop}
  (hbind : ∀ env name v, Text.isIdentifier name = true → P env → P (env.bind name v))
  {env : Environment}

include hbind

/-- An environment that is as it was, or with an identifier bound. -/
theorem preserves_of_bind (h : P env) {after : Environment}
    (hafter : after = env ∨ ∃ name v, Text.isIdentifier name = true ∧ after = env.bind name v) :
    P after := by
  rcases hafter with rfl | ⟨name, v, hname, rfl⟩
  · exact h
  · exact hbind env name v hname h

/-- **Runs preserve** what binding an identifier preserves. -/
theorem runLines_preserves (h : P env) (last : Option Value) (number : Nat) (ls : List Text) :
    P (env.runLines last number ls).1 := by
  induction ls generalizing env last number with
  | nil => exact h
  | cons line ls ih =>
    cases hskip : isSkipped line with
    | true =>
      rw [runLines_skipped hskip]
      exact ih h last _
    | false =>
      have hafter := preserves_of_bind hbind h (env.fst_executeLine line number)
      rw [runLines_statement hskip]
      generalize env.executeLine line number = step at hafter ⊢
      obtain ⟨after, result⟩ := step
      cases result with
      | error e => exact hafter
      | ok v => exact ih hafter (some v) _

theorem call_preserves (h : P env) (c : Call) : P (env.call c).1 := by
  cases c with
  | line text number => exact preserves_of_bind hbind h (env.fst_executeLine text number)
  | assign name value =>
    refine preserves_of_bind hbind h ?_
    exact (env.fst_assign name value).imp_right (fun hbound => ⟨name, hbound⟩)
  | script source => exact runLines_preserves hbind h none 1 _

theorem partway_preserves (h : P env) (c : Call) : ∀ run ∈ env.partway c, P run.1 := by
  cases c with
  | line text number => rintro run ⟨⟩
  | assign name value => rintro run ⟨⟩
  | script source =>
    unfold partway
    rw [List.forall_mem_map]
    exact fun n _ => runLines_preserves hbind h none 1 _

/-- **Sessions preserve** what binding an identifier preserves. -/
theorem session_preserves (h : P env) (calls : List Call) : ∀ s ∈ env.environments calls, P s := by
  induction calls generalizing env with
  | nil => exact List.forall_mem_singleton.mpr h
  | cons c calls ih =>
    have hmore := ih (call_preserves hbind h c)
    rw [environments_cons, List.forall_mem_cons, List.forall_mem_append, List.forall_mem_map]
    exact ⟨h, partway_preserves hbind h c, hmore⟩

end Preserves

/-! ## 3. Names -/

/-- Every name that is bound in the first environment is bound in the second one. -/
def Keeps (before after : Environment) : Prop :=
  ∀ name, (before.get? name).isSome = true → (after.get? name).isSome = true

theorem isSome_get?_bind (env : Environment) (name other : Text) (v : Value) :
    ((env.bind name v).get? other).isSome = true
      ↔ other = name ∨ (env.get? other).isSome = true := by
  by_cases h : other = name
  · subst h
    simp
  · rw [get?_bind_other _ h]
    simp [h]

theorem keeps_bind {start env : Environment} (h : Keeps start env) (name : Text) (v : Value) :
    Keeps start (env.bind name v) :=
  fun other hother => (env.isSome_get?_bind name other v).mpr (Or.inr (h other hother))

theorem keeps_refl (env : Environment) : Keeps env env := fun _ h => h

/-- More lines keep the names of fewer. -/
theorem keeps_runLines_append (env : Environment) (last : Option Value) (number : Nat)
    (ls more : List Text) :
    Keeps (env.runLines last number ls).1 (env.runLines last number (ls ++ more)).1 := by
  rw [runLines_append]
  obtain ⟨mid, result⟩ := env.runLines last number ls
  cases result with
  | error e => exact keeps_refl mid
  | ok value =>
    exact runLines_preserves (P := Keeps mid) (fun _ name v _ h => keeps_bind h name v)
      (keeps_refl mid) _ _ _

/-- More lines of a script keep the names of fewer. -/
theorem keeps_firstLines (env : Environment) (source : Text) {m n : Nat} (h : m ≤ n) :
    Keeps (env.runScript (firstLines m source)).1 (env.runScript (firstLines n source)).1 := by
  unfold runScript
  rw [Text.lines_firstLines, Text.lines_firstLines]
  have hsplit := List.take_append_drop m ((lines source).take n)
  rw [List.take_take, Nat.min_eq_left h] at hsplit
  rw [← hsplit]
  exact env.keeps_runLines_append none 1 _ _

/-- The whole script keeps the names of its first lines. -/
theorem keeps_runScript (env : Environment) (source : Text) (n : Nat) :
    Keeps (env.runScript (firstLines n source)).1 (env.runScript source).1 := by
  unfold runScript
  rw [Text.lines_firstLines]
  have hkeeps := env.keeps_runLines_append none 1 ((lines source).take n) ((lines source).drop n)
  rwa [List.take_append_drop] at hkeeps

theorem partway_keeps (env : Environment) (c : Call) :
    ∀ run ∈ env.partway c, Keeps run.1 (env.call c).1 := by
  cases c with
  | line text number => rintro run ⟨⟩
  | assign name value => rintro run ⟨⟩
  | script source =>
    unfold partway
    rw [List.forall_mem_map]
    exact fun n _ => env.keeps_runScript source n

theorem pairwise_partway (env : Environment) (c : Call) :
    ((env.partway c).map Prod.fst).Pairwise Keeps := by
  cases c with
  | line text number => exact .nil
  | assign name value => exact .nil
  | script source =>
    unfold partway
    rw [List.map_map, List.pairwise_map]
    exact List.pairwise_lt_range.imp (fun h => env.keeps_firstLines source (Nat.le_of_lt h))

/-- **No name is lost** in a session. -/
theorem pairwise_environments (env : Environment) (calls : List Call) :
    (env.environments calls).Pairwise Keeps := by
  have hfirst : ∀ (env : Environment) (calls : List Call),
      ∀ s ∈ env.environments calls, Keeps env s := fun env calls =>
    session_preserves (P := Keeps env) (fun _ name v _ h => keeps_bind h name v)
      (keeps_refl env) calls
  induction calls generalizing env with
  | nil => exact List.pairwise_singleton _ _
  | cons c calls ih =>
    have hall := hfirst env (c :: calls)
    rw [environments_cons] at hall ⊢
    refine List.pairwise_cons.mpr ⟨(List.forall_mem_cons.mp hall).2, ?_⟩
    refine List.pairwise_append.mpr ⟨env.pairwise_partway c, ih (env.call c).1, ?_⟩
    rw [List.forall_mem_map]
    intro run hrun s hs name hname
    exact hfirst (env.call c).1 calls s hs name (env.partway_keeps c run hrun name hname)

/-! ## 4. The invariant -/

/-- What holds of every environment of a session. -/
structure Sound (env : Environment) : Prop where
  pi : (env.get? ['p', 'i']).isSome = true
  euler : (env.get? ['e']).isSome = true
  identifier : ∀ name, (env.get? name).isSome = true → name.isIdentifier = true
  wellFormed : ∀ name v, env.get? name = some v → v.WellFormed

theorem sound_fresh (strict : Bool) : Sound (fresh strict) where
  pi := rfl
  euler := rfl
  identifier := by
    intro name hname
    unfold get? fresh find? find? find? at hname
    split at hname
    · next h => exact h ▸ rfl
    · split at hname
      · next h => exact h ▸ rfl
      · cases hname
  wellFormed := fun _ v _ => v.wellFormed

theorem sound_bind {env : Environment} (h : Sound env) {name : Text}
    (hname : name.isIdentifier = true) (v : Value) : Sound (env.bind name v) where
  pi := keeps_bind (keeps_refl env) name v _ h.pi
  euler := keeps_bind (keeps_refl env) name v _ h.euler
  identifier := by
    intro other hother
    rcases (env.isSome_get?_bind name other v).mp hother with rfl | hbefore
    · exact hname
    · exact h.identifier other hbefore
  wellFormed := fun _ w _ => w.wellFormed

/-- **What holds throughout a session** that starts with a fresh environment.  Every environment is
sound and keeps the names of the ones before, and every value that is answered is well formed.  So no
index into a matrix is out of bounds in a product and no divisor is zero on the way to lowest
terms. -/
theorem session_invariant (strict : Bool) (calls : List Call) :
    (∀ env ∈ (fresh strict).environments calls, Sound env) ∧
      ((fresh strict).environments calls).Pairwise Keeps ∧
      (∀ run ∈ (fresh strict).session calls, ∀ v, run.2 = .ok (some v) → v.WellFormed) ∧
      (∀ left right m position, Matrix.product left right position = .ok m →
        left.indexedProduct right = some m.rows) ∧
      ∀ q : Fraction, q.dividedReduced = some (q.reduced.numerator, q.reduced.denominator) :=
  ⟨session_preserves (P := Sound) (fun _ _ v hname h => sound_bind h hname v) (sound_fresh strict)
      calls,
    (fresh strict).pairwise_environments calls, fun _ _ v _ => v.wellFormed,
    fun _ _ _ _ h => Matrix.indexedProduct_eq h, Fraction.dividedReduced_eq⟩

namespace Example

/-- A script that binds a matrix and then fails. -/
def calls : List Call := [.script "m=[[1]]\ny".toList]

/-- The matrix with the number one in it. -/
def unit : Matrix := .ofRows [[.one]] 1 (by decide)

/-- The environment after the first line of the script. -/
def bound : Environment := (fresh false).bind ['m'] (.matrix unit)

theorem session_invariant_unit :
    Sound bound ∧ (Value.matrix unit).WellFormed ∧ unit.indexedProduct unit = some unit.rows :=
  have hinvariant := session_invariant false calls
  ⟨hinvariant.1 bound (by decide +kernel),
    hinvariant.2.2.1 (bound, .ok (some (.matrix unit))) (by decide +kernel) _ rfl,
    hinvariant.2.2.2.1 unit unit unit .unknown (by decide +kernel)⟩

end Example

end Environment
end Abacus
