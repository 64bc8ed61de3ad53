/-
# What a script does

A script is a run over its lines, and a run over lines that follow other lines is a run in the
environment that these leave behind (`runLines_append`).  Everything else is read off this: a script
that fails did what the lines before the failing one do and nothing more, and two scripts with a line
feed between them do one after the other.

The run starts to count lines at one and keeps the value of the last statement.  Both are carried
along and looked at by nobody: lines show in the positions of errors only, and the value that was
there before is what a script without statements answers with.

Main statement: `script_semantics`, with what its three parts say in `FailsAt`, `Does` and
`ScriptRun.behind`.
-/
import Abacus.Proofs.Session.Statements
import Abacus.Proofs.Text.Lines

namespace Abacus
namespace Environment

open Text (lines firstLines)

/-! ## 1. Runs over lines -/

section Runs

variable {env after : Environment} {last : Option Value} {number : Nat}

theorem runLines_skipped {line : Text} (h : isSkipped line = true) (rest : List Text) :
    env.runLines last number (line :: rest) = env.runLines last (number + 1) rest := by
  rw [runLines, if_pos h]

theorem runLines_statement {line : Text} (h : isSkipped line = false) (rest : List Text) :
    env.runLines last number (line :: rest) = match env.executeLine line number with
      | (after, .ok v) => after.runLines (some v) (number + 1) rest
      | (after, .error e) => (after, .error e) := by
  refine (if_neg (by simp [h])).trans ?_
  rcases env.executeLine line number with ⟨_, _ | _⟩ <;> rfl

/-- **Lines behind others** run in the environment that these leave behind, unless these fail. -/
theorem runLines_append (env : Environment) (last : Option Value) (number : Nat)
    (before more : List Text) :
    env.runLines last number (before ++ more) = match env.runLines last number before with
      | (mid, .ok value) => mid.runLines value (number + before.length) more
      | (mid, .error e) => (mid, .error e) := by
  induction before generalizing env last number with
  | nil => rfl
  | cons line before ih =>
    rw [List.cons_append, List.length_cons, Nat.add_comm before.length, ← Nat.add_assoc]
    cases hskip : isSkipped line with
    | true => rw [runLines_skipped hskip, runLines_skipped hskip, ih]
    | false =>
      rw [runLines_statement hskip, runLines_statement hskip]
      obtain ⟨after, result⟩ := env.executeLine line number
      cases result with
      | error e => rfl
      | ok v => exact ih _ _ _

/-- A run that fails has a failing line, and the lines before that one do not fail.  The failing line
changes nothing, so what they leave behind is what the run leaves behind. -/
theorem exists_of_runLines_error {ls : List Text} {e : Error}
    (h : env.runLines last number ls = (after, .error e)) :
    ∃ before line rest value, ls = before ++ line :: rest ∧
      env.runLines last number before = (after, .ok value) ∧ isSkipped line = false ∧
        after.executeLine line (number + before.length) = (after, .error e) := by
  induction ls generalizing env last number with
  | nil => cases h
  | cons line ls ih =>
    cases hskip : isSkipped line with
    | true =>
      rw [runLines_skipped hskip] at h
      obtain ⟨before, failing, rest, value, rfl, hrun, hfailing, herror⟩ := ih h
      refine ⟨line :: before, failing, rest, value, rfl, ?_, hfailing, ?_⟩
      · rw [runLines_skipped hskip, hrun]
      · rwa [List.length_cons, Nat.add_comm before.length, ← Nat.add_assoc]
    | false =>
      rw [runLines_statement hskip] at h
      rcases hline : env.executeLine line number with ⟨mid, result⟩
      cases result with
      | error f =>
        rw [hline] at h
        cases h
        obtain rfl := executeLine_eq_error hline
        exact ⟨[], line, ls, last, rfl, rfl, hskip, hline⟩
      | ok v =>
        rw [hline] at h
        obtain ⟨before, failing, rest, value, rfl, hrun, hfailing, herror⟩ := ih h
        refine ⟨line :: before, failing, rest, value, rfl, ?_, hfailing, ?_⟩
        · rw [runLines_statement hskip, hline]
          exact hrun
        · rwa [List.length_cons, Nat.add_comm before.length, ← Nat.add_assoc]

/-- A failing line ends the run. -/
theorem runLines_of_error {before : List Text} {value : Option Value} {line : Text} {e : Error}
    (hrun : env.runLines last number before = (after, .ok value)) (hskip : isSkipped line = false)
    (herror : after.executeLine line (number + before.length) = (after, .error e)) (rest : List Text) :
    env.runLines last number (before ++ line :: rest) = (after, .error e) := by
  rw [runLines_append, hrun]
  dsimp only
  rw [runLines_statement hskip, herror]

/-- The value that a run starts with is only answered by a run without statements. -/
theorem runLines_last (env : Environment) (last : Option Value) (number : Nat) (ls : List Text) :
    env.runLines last number ls = Run.map (fun v => v.or last) (env.runLines none number ls) := by
  induction ls generalizing env last number with
  | nil => rfl
  | cons line ls ih =>
    cases hskip : isSkipped line with
    | true => rw [runLines_skipped hskip, runLines_skipped hskip, ih]
    | false =>
      rw [runLines_statement hskip, runLines_statement hskip]
      obtain ⟨after, result⟩ := env.executeLine line number
      cases result with
      | error e => rfl
      | ok v =>
        dsimp only
        rw [ih]
        simp only [Run.map, map_map]
        congr 2
        funext v
        cases v <;> rfl

/-- Further down, a run does the same, and its error is that much further down. -/
theorem runLines_add (env : Environment) (last : Option Value) (number down : Nat)
    (ls : List Text) :
    env.runLines last (number + down) ls
      = Run.mapError (fun e => e.down down) (env.runLines last number ls) := by
  induction ls generalizing env last number with
  | nil => rfl
  | cons line ls ih =>
    have hnext : number + down + 1 = number + 1 + down := Nat.add_right_comm _ _ _
    cases hskip : isSkipped line with
    | true => rw [runLines_skipped hskip, runLines_skipped hskip, hnext, ih]
    | false =>
      rw [runLines_statement hskip, runLines_statement hskip, executeLine_add]
      obtain ⟨after, result⟩ := env.executeLine line number
      cases result with
      | error e => rfl
      | ok v =>
        rw [hnext]
        exact ih _ _ _

end Runs

/-! ## 2. Scripts that fail -/

/-- A script fails with an error and leaves an environment behind: the line of the error is a line of
the script, the lines before it succeed and leave that environment, it fails in there and changes nothing,
and no line behind it matters. -/
structure FailsAt (env : Environment) (source : Text) (after : Environment) (e : Error) : Prop where
  positive : 1 ≤ e.position.line
  before : ∃ value, env.runScript (firstLines (e.position.line - 1) source) = (after, .ok value)
  failing : ∃ line, (lines source)[e.position.line - 1]? = some line ∧
    after.executeLine line e.position.line = (after, .error e)
  rest : ∀ other, firstLines e.position.line other = firstLines e.position.line source →
    env.runScript other = (after, .error e)

/-- **A script that fails** did what the lines before the failing one do. -/
theorem failsAt_of_runScript {env after : Environment} {source : Text} {e : Error}
    (h : env.runScript source = (after, .error e)) : FailsAt env source after e := by
  obtain ⟨before, line, rest, value, hlines, hrun, hskip, herror⟩ := exists_of_runLines_error h
  have hline : e.position.line = before.length + 1 := by
    rw [line_of_executeLine _ (congrArg Prod.snd herror), Nat.add_comm]
  have hindex : e.position.line - 1 = before.length := by rw [hline, Nat.add_sub_cancel]
  refine ⟨?_, ⟨value, ?_⟩, ⟨line, ?_, ?_⟩, ?_⟩
  · rw [hline]
    exact Nat.le_add_left 1 _
  · unfold runScript
    rw [Text.lines_firstLines, hlines, hindex, List.take_left]
    exact hrun
  · rw [hlines, hindex, List.getElem?_append_right (Nat.le_refl _), Nat.sub_self]
    rfl
  · rw [hline, Nat.add_comm]
    exact herror
  · intro other hother
    have htake : (lines other).take (before.length + 1) = before ++ [line] := by
      rw [← Text.lines_firstLines, ← hline, hother, Text.lines_firstLines, hlines, hline,
        List.append_cons]
      exact List.take_left' (by simp)
    have hother : lines other = before ++ line :: (lines other).drop (before.length + 1) := by
      rw [← List.take_append_drop (before.length + 1) (lines other), htake]
      simp
    unfold runScript
    rw [hother]
    exact runLines_of_error hrun hskip herror _

/-! ## 3. Statements that succeed -/

/-- What a statement does to an environment when it answers with a value: without a target nothing,
and with a target it binds the target, so that the target alone answers with the value. -/
structure Does (env : Environment) (s : Statement) (v : Value) (after : Environment) : Prop where
  expression : s.target? = none → after = env
  strict : after.strict = env.strict
  other : ∀ name, s.target? = some name → ∀ other, other ≠ name → after.get? other = env.get? other
  readBack : ∀ name, s.target? = some name → ∀ line, after.executeLine name line = (after, .ok v)

/-- **A statement that succeeds** changes its target only, and the target answers with the value. -/
theorem does_of_executeLine {env after : Environment} {text : Text} {line : Nat} {v : Value}
    (h : env.executeLine text line = (after, .ok v)) :
    ∃ s, Statement.parse text line = .ok s ∧ Does env s v after := by
  obtain ⟨s, hparse, rfl⟩ := executeLine_eq_ok h
  refine ⟨s, hparse, ?_⟩
  cases htarget : s.target? with
  | none =>
    refine ⟨fun _ => rfl, rfl, ?_, ?_⟩
    · intro name hname
      rw [htarget] at hname
      cases hname
    · intro name hname
      rw [htarget] at hname
      cases hname
  | some target =>
    refine ⟨?_, rfl, ?_, ?_⟩
    · intro hnone
      rw [hnone] at htarget
      cases htarget
    · intro name hname other hne
      rw [htarget] at hname
      cases hname
      exact env.get?_bind_other hne v
    · intro name hname line
      rw [htarget] at hname
      cases hname
      exact executeLine_identifier (Statement.isIdentifier_target hparse htarget)
        (env.get?_bind_same _ v) line

/-! ## 4. Scripts behind scripts -/

/-- The run of a script that stands behind another one: its error is further down, and where it has
no value, the other one's is answered. -/
def ScriptRun.behind (run : ScriptRun) (lines : Nat) (last : Option Value) : ScriptRun :=
  (run.1, (run.2.mapError (fun e => e.down lines)).map (fun v => v.or last))

/-- A line feed behind a script that succeeds changes nothing. -/
theorem runLines_newline {env mid : Environment} {s : Text} {last : Option Value}
    (hreturn : s.getLast? ≠ some '\r') (h : env.runScript s = (mid, .ok last)) :
    env.runLines none 1 (lines (s ++ ['\n'])) = (mid, .ok last) := by
  rcases Text.lines_newline hreturn with hsame | hblank
  · rw [hsame]
    exact h
  · rw [hblank, runLines_append]
    unfold runScript at h
    rw [h]
    rfl

/-- **Two scripts with a line feed between them** do one after the other. -/
theorem runScript_append {env mid : Environment} {s : Text} {last : Option Value}
    (hreturn : s.getLast? ≠ some '\r') (h : env.runScript s = (mid, .ok last)) (t : Text) :
    env.runScript (s ++ '\n' :: t) = (mid.runScript t).behind (s.count '\n' + 1) last := by
  unfold runScript
  rw [Text.lines_append_newline, runLines_append, runLines_newline hreturn h,
    Text.length_lines_newline]
  dsimp only
  rw [runLines_add, runLines_last]
  obtain ⟨after, result⟩ := mid.runLines none 1 (lines t)
  cases result <;> rfl

/-! ## 5. All together -/

/-- **What a script does.**  Where it fails, the lines before the error have been run and nothing
else.  A statement on the way changes its target only, and the target alone answers with its value.
A script that succeeds can be run before another one or in one text with it. -/
theorem script_semantics (env : Environment) :
    (∀ source after e, env.runScript source = (after, .error e) → FailsAt env source after e) ∧
      (∀ text line v after, env.executeLine text line = (after, .ok v) →
        ∃ s, Statement.parse text line = .ok s ∧ Does env s v after) ∧
      ∀ s t mid last, s.getLast? ≠ some '\r' → env.runScript s = (mid, .ok last) →
        env.runScript (s ++ '\n' :: t) = (mid.runScript t).behind (s.count '\n' + 1) last :=
  ⟨fun _ _ _ h => failsAt_of_runScript h, fun _ _ _ _ h => does_of_executeLine h,
    fun _ t _ _ hreturn h => runScript_append hreturn h t⟩

namespace Example

/-- An environment without bindings. -/
def empty : Environment := ⟨[], false⟩

/-- The environment that `x=1` leaves. -/
def one : Environment := ⟨[(['x'], .scalar .one)], false⟩

/-- An unknown name on the second line ends a script before its third line. -/
theorem script_semantics_one :
    FailsAt empty "x=1\ny\nx=2".toList one ⟨.unknownVariable ['y'], ⟨2, 1⟩⟩ ∧
      (∃ s, Statement.parse "x=1".toList 1 = .ok s ∧ Does empty s (.scalar .one) one) ∧
        empty.runScript ("x=1".toList ++ '\n' :: "// x".toList)
          = (one.runScript "// x".toList).behind (("x=1".toList).count '\n' + 1)
              (some (.scalar .one)) :=
  ⟨(script_semantics empty).1 _ _ _ (by decide +kernel),
    (script_semantics empty).2.1 _ _ _ _ (by decide +kernel),
    (script_semantics empty).2.2 _ _ _ _ (by decide) (by decide +kernel)⟩

end Example

end Environment
end Abacus
