/-
# Sessions and scripts

What is asked of an environment is a computation that may change it, and that answers with a result or
an error.  A change is made at once and nothing takes it back, so an error is answered with in the
environment that the computation has come to by then.  Callers go on with that environment in either
case.

A statement computes its value first and binds it last.

A script is run line by line.  Blank lines and lines whose first characters are two slashes are no
statements.  The first error ends the script.

Main statement: `run_bind`: what follows a computation goes on in the environment that it leaves
behind, unless it fails.
-/
import Abacus.Evaluation.Text
import Abacus.Statement

namespace Abacus

/-! ## 1. Computations -/

/-- A computation that reads and changes an environment, and answers with a result or an error. -/
abbrev Session : Type → Type := ExceptT Error (StateM Environment)

/-- An outcome that is read off the environment. -/
def Session.reading {α : Type} (f : Environment → Except Error α) : Session α := do
  liftExcept (f (← get))

namespace Environment

/-- An environment that is left behind, and what is answered: a result or an error. -/
abbrev Run (α : Type) : Type := Environment × Except Error α

/-- The run of a computation from an environment on. -/
def run {α : Type} (env : Environment) (x : Session α) : Run α :=
  let (answer, after) := (ExceptT.run x).run env
  (after, answer)

section Runs

variable {α β : Type} (env : Environment)

@[simp] theorem run_pure (a : α) : env.run (pure a) = (env, .ok a) := rfl

@[simp] theorem run_throw (e : Error) : env.run (throw e : Session α) = (env, .error e) := rfl

@[simp] theorem run_liftExcept (outcome : Except Error α) :
    env.run (liftExcept outcome) = (env, outcome) := by
  cases outcome <;> rfl

@[simp] theorem run_reading (f : Environment → Except Error α) :
    env.run (.reading f) = (env, f env) :=
  env.run_liftExcept (f env)

@[simp] theorem run_modify (f : Environment → Environment) :
    env.run (modify f) = (f env, .ok PUnit.unit) := rfl

/-- **Sequencing**: the second computation goes on where the first one ends, unless that fails. -/
theorem run_bind (x : Session α) (f : α → Session β) :
    env.run (x >>= f) = match env.run x with
      | (after, .ok a) => after.run (f a)
      | (after, .error e) => (after, .error e) := by
  unfold run
  rw [ExceptT.run_bind, StateT.run_bind]
  rcases StateT.run (ExceptT.run x) env with ⟨_ | _, _⟩ <;> rfl

end Runs

end Environment

/-! ## 2. Statements -/

namespace Session

/-- The value of a text is bound to a name, unless the environment refuses. -/
def assignText (name value : Text) (valuePosition position : Position) : Session Value := do
  reading (fun env => env.checkFree name position)
  let v ← reading (fun env => env.evaluate value valuePosition)
  modify (fun env => env.bind name v)
  return v

/-- A bound name is changed by a function of its value. -/
def update (name : Text) (position : Position) (f : Value → Session Value) : Session Value := do
  let old ← reading (fun env => env.lookup name position)
  let v ← f old
  modify (fun env => env.bind name v)
  return v

/-- One statement. -/
def execute : Statement → Session Value
  | .expression text position => reading (fun env => env.evaluate text position)
  | .assignment name value valuePosition position => assignText name value valuePosition position
  | .compound name op value valuePosition position =>
    update name position (fun old => do
      let operand ← reading (fun env => env.evaluate value valuePosition)
      liftExcept (Value.combine op old operand position))
  | .increment name position => update name position (fun old => return old.incremented)
  | .decrement name position => update name position (fun old => return old.decremented)

end Session

namespace Environment

/-- A statement's value or error, and the environment after it. -/
abbrev Step : Type := Run Value

/-- The statement in a text, on a line of the source. -/
def executeLine (env : Environment) (text : Text) (line : Nat) : Step :=
  env.run do
    let statement ← liftExcept (Statement.parse text line)
    Session.execute statement

/-- A text is one whole name. -/
def isName (text : Text) : Bool :=
  match Literal.name? (Cursor.start text) with
  | some (_, after) => after.atEnd
  | none => false

/-- The value of a text is bound to a name given apart from it. -/
def assign (env : Environment) (name value : Text) : Step :=
  let origin := Position.inLine 1 0
  env.run do
    if isName name then Session.assignText name value origin origin
    else throw ⟨.invalidAssignmentTarget name, origin⟩

/-! ## 3. Scripts -/

/-- A line that holds no statement: it is blank, or it starts with two slashes. -/
def isSkipped (line : Text) : Bool :=
  match Text.trim line with
  | [] => true
  | '/' :: '/' :: _ => true
  | _ => false

/-- What a script leaves behind: the environment, and the value of its last statement or the error
that ended it. -/
abbrev ScriptRun : Type := Run (Option Value)

/-- The lines of a script from a line number on, after statements whose last value is known. -/
def runLines (env : Environment) (last : Option Value) : Nat → List Text → ScriptRun
  | _, [] => (env, .ok last)
  | number, line :: lines =>
    if isSkipped line then runLines env last (number + 1) lines
    else
      match env.executeLine line number with
      | (after, .ok v) => runLines after (some v) (number + 1) lines
      | (after, .error error) => (after, .error error)

/-- A whole script. -/
def runScript (env : Environment) (source : Text) : ScriptRun :=
  env.runLines none 1 (Text.lines source)

end Environment
end Abacus
