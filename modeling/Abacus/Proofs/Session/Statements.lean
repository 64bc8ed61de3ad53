/-
# What one statement does

A statement reads before it writes.  What it answers with is found out from the environment as it was,
and then a value is bound to one name, the target, if there is one.  So a statement that fails has
changed nothing, and a statement that succeeds leaves the environment as it is or binds its target to
the value that it answers with.  Targets are identifiers.  A text that is one identifier is a statement
too, and its value is the value of the name, by whichever route it is evaluated.  So what a statement
has bound can be read back by a statement that consists of the target alone.

The line on which a statement stands shows in the positions of errors and nowhere else.  More
generally, two statements of one shape do the same if the texts of their values evaluate alike
(`AlikeStatement`).

Main statements:

* `run_execute`: what a statement does, by what it answers with (`answer`) and what it leaves behind
  (`settle`);
* `run_execute_eq_error`: a statement that fails changes nothing, and so neither does a line nor an
  assignment from outside (`executeLine_eq_error`, `assign_eq_error`);
* `executeLine_eq_ok`: what a line does that succeeds;
* `answer_congr`: what an answer depends on;
* `fst_executeLine`, `fst_assign`: what is left behind in either case;
* `executeLine_identifier`: a name that is bound is read back;
* `corresponds_executeLine_of_parse`: lines that are alike do the same;
* `corresponds_executeLine`: a statement on two lines; `executeLine_add` and `line_of_executeLine`
  are the two cases that scripts need.
-/
import Mathlib.Data.Option.Defs
import Abacus.Proofs.Evaluation.Variables
import Abacus.Proofs.Expr.Limits
import Abacus.Proofs.Token.Spacing
import Abacus.Session

namespace Abacus

/-! ## 1. Targets -/

namespace Statement

/-- The name that a statement binds, if it binds one. -/
def target? : Statement → Option Text
  | expression _ _ => none
  | assignment name _ _ _ => some name
  | compound name _ _ _ _ => some name
  | increment name _ => some name
  | decrement name _ => some name

/-- The name that a plain assignment binds. -/
def assigned? : Statement → Option Text
  | assignment name _ _ _ => some name
  | _ => none

/-- The name that a statement updates: the target of a compound assignment, of an increment or of a
decrement. -/
def updated? : Statement → Option Text
  | compound name _ _ _ _ => some name
  | increment name _ => some name
  | decrement name _ => some name
  | _ => none

/-- A target is assigned or updated. -/
theorem target?_eq_some_iff {s : Statement} {name : Text} :
    s.target? = some name ↔ s.assigned? = some name ∨ s.updated? = some name := by
  cases s <;> simp [target?, assigned?, updated?]

/-- The text that is evaluated for a statement, and its place. -/
def evaluated? : Statement → Option (Text × Position)
  | expression text p => some (text, p)
  | assignment _ value p _ => some (value, p)
  | compound _ _ value p _ => some (value, p)
  | _ => none

theorem target?_ofTarget? {name : Text} {origin position : Position} {after : Cursor}
    {s : Statement} (h : ofTarget? name origin position after = some s) :
    s.target? = some name := by
  unfold ofTarget? at h
  dsimp only at h
  split at h
  · cases h
    rfl
  · split at h
    · cases h
      rfl
    · split at h
      · cases h
        rfl
      · split at h
        · cases h
          rfl
        · cases h

end Statement

namespace Literal

/-- A name is an identifier. -/
theorem isIdentifier_of_name? {c after : Cursor} {name : Text} (h : name? c = some (name, after)) :
    name.isIdentifier = true := by
  unfold name? Cursor.peek? at h
  cases hrest : c.rest with
  | nil =>
    rw [hrest] at h
    cases h
  | cons first rest =>
    rw [hrest] at h
    dsimp only [List.head?_cons] at h
    split at h
    · next halpha =>
      cases h
      exact Text.isIdentifier_takeWhile halpha rest
    · cases h

/-- A name is taken off in front of a text that does not go on with it. -/
theorem name?_append {name rest : Text} (h : name.isIdentifier = true)
    (hrest : ∀ c ∈ rest.head?, Text.isWordChar c = false) :
    name? (Cursor.start (name ++ rest)) = some (name, ⟨Text.byteLength name, rest⟩) := by
  obtain ⟨htake, hdrop⟩ := span_append (Text.isWordChar_of_isIdentifier h) hrest
  cases name with
  | nil => cases h
  | cons c cs =>
    have halpha : c.isAlpha = true := (Bool.and_eq_true_iff.mp h).1
    unfold name? Cursor.peek? Cursor.start Cursor.skipWhile
    dsimp only
    rw [htake, hdrop, List.cons_append, List.head?_cons, Nat.zero_add]
    exact if_pos halpha

/-- A name is taken off as long as it is. -/
theorem name?_identifier {name : Text} (h : name.isIdentifier = true) :
    name? (Cursor.start name) = some (name, ⟨Text.byteLength name, []⟩) := by
  have hname := name?_append h (show ∀ c ∈ ([] : Text).head?, Text.isWordChar c = false by simp)
  rwa [List.append_nil] at hname

/-- No blanks are in front of a name. -/
theorem skipBlanks_identifier {name : Text} (h : name.isIdentifier = true) (rest : Text) :
    (Cursor.start (name ++ rest)).skipBlanks = Cursor.start (name ++ rest) := by
  have hword := Text.isWordChar_of_isIdentifier h
  cases name with
  | nil => cases h
  | cons c cs =>
    have hblank : ¬ Text.isBlank c = true := by
      intro hblank
      have hc := hword c List.mem_cons_self
      simp only [Text.isBlank, Bool.or_eq_true, beq_iff_eq] at hblank
      rcases hblank with rfl | rfl <;> cases hc
    unfold Cursor.start Cursor.skipBlanks Cursor.skipWhile
    dsimp only
    rw [List.cons_append, List.takeWhile_cons_of_neg hblank, List.dropWhile_cons_of_neg hblank]
    rfl

end Literal

namespace Statement

/-- The target of a statement is an identifier. -/
theorem isIdentifier_target {text name : Text} {line : Nat} {s : Statement}
    (h : parse text line = .ok s) (htarget : s.target? = some name) :
    name.isIdentifier = true := by
  unfold parse at h
  dsimp only at h
  split at h
  · next named hnamed =>
    cases h
    split at hnamed
    · cases hnamed
    · next found after hfound =>
      rw [target?_ofTarget? hnamed] at htarget
      cases htarget
      exact Literal.isIdentifier_of_name? hfound
  · split at h
    · cases h
    · cases h
      cases htarget

end Statement

namespace Environment

/-- A text that is one whole name is an identifier. -/
theorem isIdentifier_of_isName {name : Text} (h : isName name = true) :
    name.isIdentifier = true := by
  unfold isName at h
  split at h
  · next found after hfound =>
    have hid := Literal.isIdentifier_of_name? hfound
    obtain ⟨hname, hrest⟩ : found = name.takeWhile Text.isWordChar
        ∧ after.rest = name.dropWhile Text.isWordChar := by
      unfold Literal.name? at hfound
      split at hfound
      · split at hfound
        · cases hfound
          exact ⟨rfl, rfl⟩
        · cases hfound
      · cases hfound
    have hall := List.takeWhile_append_dropWhile (p := Text.isWordChar) (l := name)
    rw [← hname, ← hrest, List.isEmpty_iff.mp h, List.append_nil] at hall
    rwa [hall] at hid
  · cases h

/-! ## 2. Steps -/

/-- A run with another result in the place of its result. -/
def Run.map {α β : Type} (f : α → β) (run : Run α) : Run β := (run.1, run.2.map f)

/-- A run with another error in the place of its error. -/
def Run.mapError {α : Type} (f : Error → Error) (run : Run α) : Run α := (run.1, run.2.mapError f)

theorem Run.map_eq_error {α β : Type} {f : α → β} {run : Run α} {after : Environment} {e : Error}
    (h : Run.map f run = (after, .error e)) : run = (after, .error e) := by
  obtain ⟨hafter, hresult⟩ := Prod.mk.inj h
  exact Prod.ext hafter (Abacus.map_eq_error hresult)

/-- What a statement answers with, by what it reads alone. -/
def answer (env : Environment) : Statement → Except Error Value
  | .expression text p => env.evaluate text p
  | .assignment name value p q => do
    env.checkFree name q
    env.evaluate value p
  | .compound name op value p q => do
    let old ← env.lookup name q
    let operand ← env.evaluate value p
    Value.combine op old operand q
  | .increment name p => do
    let old ← env.lookup name p
    return old.incremented
  | .decrement name p => do
    let old ← env.lookup name p
    return old.decremented

/-- The environment after an answer: a value is bound to the target, if there is one, and an error
leaves everything as it was. -/
def settle (env : Environment) (target? : Option Text) : Except Error Value → Environment
  | .ok v => target?.elim env (fun name => env.bind name v)
  | .error _ => env

section Steps

variable {env after : Environment} {v : Value} {e : Error}

/-- A computation behind an outcome that is read off the environment. -/
theorem run_reading_bind {α β : Type} (env : Environment) (f : Environment → Except Error α)
    (next : α → Session β) : env.run (Session.reading f >>= next) = match f env with
      | .ok a => env.run (next a)
      | .error e => (env, .error e) := by
  rw [run_bind, run_reading]
  cases f env <;> rfl

theorem run_assignText (env : Environment) (name value : Text) (p q : Position) :
    env.run (Session.assignText name value p q)
      = (env.settle (some name) (env.answer (.assignment name value p q)),
        env.answer (.assignment name value p q)) := by
  rw [Session.assignText, answer, run_reading_bind]
  cases env.checkFree name q with
  | error e => rfl
  | ok u =>
    dsimp only
    rw [run_reading_bind, ok_bind]
    cases env.evaluate value p with
    | error e => rfl
    | ok v => simp only [run_bind, run_modify, run_pure, settle, Option.elim_some]

/-- An update by a function that only reads the environment. -/
theorem run_update (env : Environment) (name : Text) (p : Position) {f : Value → Session Value}
    {g : Value → Except Error Value} (hf : ∀ old, env.run (f old) = (env, g old)) :
    env.run (Session.update name p f)
      = (env.settle (some name) (env.lookup name p >>= g), env.lookup name p >>= g) := by
  rw [Session.update, run_reading_bind]
  cases env.lookup name p with
  | error e => rfl
  | ok old =>
    dsimp only
    rw [run_bind, hf, ok_bind]
    cases g old with
    | error e => rfl
    | ok v => simp only [run_bind, run_modify, run_pure, settle, Option.elim_some]

/-- **What a statement does**: it answers with what it reads, and then it binds a value to its
target. -/
theorem run_execute (env : Environment) (s : Statement) :
    env.run (Session.execute s) = (env.settle s.target? (env.answer s), env.answer s) := by
  cases s with
  | expression text p =>
    rw [Session.execute, run_reading, answer]
    cases env.evaluate text p <;> rfl
  | assignment name value p q => exact env.run_assignText name value p q
  | compound name op value p q =>
    refine env.run_update name q (fun old => ?_)
    rw [run_reading_bind]
    cases env.evaluate value p with
    | error e => rfl
    | ok operand => exact env.run_liftExcept _
  | increment name p => exact env.run_update name p (fun old => env.run_pure old.incremented)
  | decrement name p => exact env.run_update name p (fun old => env.run_pure old.decremented)

/-- **What a statement answers with** depends on the check of a plain assignment, on the value that
an update starts with, and on the value of its text. -/
theorem answer_congr {a b : Environment} {s : Statement}
    (hfree : ∀ name p, s.assigned? = some name → a.checkFree name p = b.checkFree name p)
    (hget : ∀ name, s.updated? = some name → a.get? name = b.get? name)
    (hvalue : ∀ text p, s.evaluated? = some (text, p) → a.evaluate text p = b.evaluate text p) :
    a.answer s = b.answer s := by
  cases s with
  | expression text p => exact hvalue text p rfl
  | assignment name value p q => rw [answer, answer, hfree name q rfl, hvalue value p rfl]
  | compound name op value p q =>
    rw [answer, answer, lookup_congr (hget name rfl), hvalue value p rfl]
  | increment name p => rw [answer, answer, lookup_congr (hget name rfl)]
  | decrement name p => rw [answer, answer, lookup_congr (hget name rfl)]

/-- **A statement that fails changes nothing.** -/
theorem run_execute_eq_error {s : Statement} (h : env.run (Session.execute s) = (after, .error e)) :
    after = env := by
  rw [run_execute, Prod.mk.injEq] at h
  obtain ⟨hafter, hanswer⟩ := h
  rw [← hafter, hanswer, settle]

/-- A line that is a statement is a run of the statement. -/
theorem executeLine_eq_run {text : Text} {line : Nat} {s : Statement}
    (h : Statement.parse text line = .ok s) :
    env.executeLine text line = env.run (Session.execute s) := by
  rw [executeLine, run_bind, run_liftExcept, h]

/-- A line that is a statement does what the statement does. -/
theorem executeLine_of_parse {text : Text} {line : Nat} {s : Statement}
    (h : Statement.parse text line = .ok s) :
    env.executeLine text line = (env.settle s.target? (env.answer s), env.answer s) :=
  (executeLine_eq_run h).trans (env.run_execute s)

/-- A line that is no statement does nothing. -/
theorem executeLine_of_parse_error {text : Text} {line : Nat}
    (h : Statement.parse text line = .error e) : env.executeLine text line = (env, .error e) := by
  rw [executeLine, run_bind, run_liftExcept, h]

/-- What a line answers with. -/
theorem snd_executeLine (env : Environment) (text : Text) (line : Nat) :
    (env.executeLine text line).2 = Statement.parse text line >>= env.answer := by
  cases h : Statement.parse text line with
  | error e => rw [executeLine_of_parse_error h, error_bind]
  | ok s => rw [executeLine_of_parse h, ok_bind]

/-- **A line that fails changes nothing.** -/
theorem executeLine_eq_error {text : Text} {line : Nat}
    (h : env.executeLine text line = (after, .error e)) : after = env := by
  cases hparse : Statement.parse text line with
  | error f =>
    rw [executeLine_of_parse_error hparse] at h
    cases h
    rfl
  | ok s =>
    rw [executeLine_eq_run hparse] at h
    exact run_execute_eq_error h

/-- **What a line that succeeds does**: it binds its target to the value that it answers with, and
without a target it leaves the environment as it is. -/
theorem executeLine_eq_ok {text : Text} {line : Nat}
    (h : env.executeLine text line = (after, .ok v)) :
    ∃ s, Statement.parse text line = .ok s ∧
      after = s.target?.elim env (fun name => env.bind name v) := by
  cases hparse : Statement.parse text line with
  | error f =>
    rw [executeLine_of_parse_error hparse] at h
    cases h
  | ok s =>
    rw [executeLine_of_parse hparse, Prod.mk.injEq] at h
    obtain ⟨hafter, hanswer⟩ := h
    exact ⟨s, rfl, by rw [← hafter, hanswer, settle]⟩

/-- **What a line leaves behind**: the environment as it was, or with one identifier bound. -/
theorem fst_executeLine (env : Environment) (text : Text) (line : Nat) :
    (env.executeLine text line).1 = env ∨
      ∃ name v, Text.isIdentifier name = true ∧ (env.executeLine text line).1 = env.bind name v := by
  rcases hline : env.executeLine text line with ⟨after, result⟩
  cases result with
  | error e => exact Or.inl (executeLine_eq_error hline)
  | ok v =>
    obtain ⟨s, hparse, rfl⟩ := executeLine_eq_ok hline
    cases htarget : s.target? with
    | none => exact Or.inl rfl
    | some name => exact Or.inr ⟨name, v, Statement.isIdentifier_target hparse htarget, rfl⟩

/-- An assignment from outside to an identifier is an assignment. -/
theorem assign_of_isIdentifier {name : Text} (h : name.isIdentifier = true) (env : Environment)
    (value : Text) : env.assign name value
      = env.run (Session.execute (.assignment name value (.inLine 1 0) (.inLine 1 0))) := by
  have hname : isName name = true := by
    unfold isName
    rw [Literal.name?_identifier h]
    rfl
  simp only [assign, hname, if_true, Session.execute]

theorem assign_of_not_isIdentifier {name : Text} (h : ¬ name.isIdentifier = true)
    (env : Environment) (value : Text) :
    env.assign name value = (env, .error ⟨.invalidAssignmentTarget name, .inLine 1 0⟩) := by
  have hname : ¬ isName name = true := fun hname => h (isIdentifier_of_isName hname)
  simp only [assign, if_neg hname, run_throw]

/-- **An assignment from outside that fails changes nothing.** -/
theorem assign_eq_error {name value : Text} (h : env.assign name value = (after, .error e)) :
    after = env := by
  by_cases hname : name.isIdentifier = true
  · rw [assign_of_isIdentifier hname] at h
    exact run_execute_eq_error h
  · rw [assign_of_not_isIdentifier hname] at h
    cases h
    rfl

/-- **What an assignment from outside leaves behind**: the environment as it was, or with an
identifier bound. -/
theorem fst_assign (env : Environment) (name value : Text) :
    (env.assign name value).1 = env ∨
      ∃ v, Text.isIdentifier name = true ∧ (env.assign name value).1 = env.bind name v := by
  by_cases hname : name.isIdentifier = true
  · rw [assign_of_isIdentifier hname, run_execute]
    cases env.answer (.assignment name value (.inLine 1 0) (.inLine 1 0)) with
    | error e => exact Or.inl rfl
    | ok v => exact Or.inr ⟨v, hname, rfl⟩
  · rw [assign_of_not_isIdentifier hname]
    exact Or.inl rfl

end Steps

/-! ## 3. Reading back -/

variable {env : Environment} {v : Value}

/-- The tree of an identifier is its name. -/
theorem parse_identifier {name : Text} (h : name.isIdentifier = true) (origin : Position) :
    Expr.parse name origin = .ok (.name name origin) := by
  have hscan : Token.scan? (name ++ []) = some (.name name, name, []) :=
    Token.scan?_identifier h (by rintro c ⟨⟩)
  rw [List.append_nil] at hscan
  have hcuts := Token.Cuts.single (p := origin) hscan rfl
  unfold Expr.parse Expr.parseWithin
  rw [hcuts.lex_eq_ok, ok_bind]
  refine Expr.ofLexemes_of_within (.name 0 1 name origin) ?_ rfl _
  intro j hj
  rw [Nat.le_zero.mp hj]
  rfl

/-- The value of an identifier is that of the name.  It is no literal, because the tree of a literal
is no name. -/
theorem evaluate_identifier {name : Text} (h : name.isIdentifier = true) (origin : Position) :
    env.evaluate name origin = env.lookup name origin := by
  have hparse := parse_identifier h origin
  have harithmetic : env.evaluateArithmetic name origin = env.lookup name origin := by
    rw [evaluateArithmetic_eq_eval, hparse, ok_bind, eval]
  unfold evaluate
  dsimp only
  cases hkind : Literal.classify name with
  | matrix =>
    obtain ⟨-, hcovers⟩ := Bool.and_eq_true_iff.mp (Literal.classify_eq_matrix.mp hkind)
    obtain ⟨rows, after, hfound, hend⟩ := Literal.coversText_iff.mp hcovers
    rw [Literal.parse_of_matrix hfound hend] at hparse
    cases hparse
  | vector =>
    obtain ⟨-, hcovers⟩ := Bool.and_eq_true_iff.mp (Literal.classify_eq_vector.mp hkind)
    obtain ⟨xs, after, hfound, hend⟩ := Literal.coversText_iff.mp hcovers
    rw [Literal.parse_of_vector hfound hend] at hparse
    cases hparse
  | rational =>
    obtain ⟨parts, after, hfound, hend⟩ :=
      Literal.coversText_iff.mp (Literal.classify_eq_rational.mp hkind)
    obtain ⟨p, q, r, hdivision⟩ : ∃ p q r, Expr.parse name origin
        = .ok (.binary .div (.number parts.1 p) (.number parts.2 q) r) :=
      Literal.parse_of_rational hfound hend
    rw [hdivision] at hparse
    cases hparse
  | number =>
    obtain ⟨x, after, hfound, hend⟩ :=
      Literal.coversText_iff.mp (Literal.classify_eq_number.mp hkind)
    rw [Literal.parse_of_number hfound hend] at hparse
    cases hparse
  | functionCall => exact harithmetic
  | arithmetic => exact harithmetic

/-- An identifier is no assignment. -/
theorem statement_identifier {name : Text} (h : name.isIdentifier = true) (line : Nat) :
    Statement.parse name line = .ok (.expression name (.inLine line 0)) := by
  have hword := Text.isWordChar_of_isIdentifier h
  have hstart : (Cursor.start name).skipBlanks = Cursor.start name := by
    have hskip := Literal.skipBlanks_identifier h []
    rwa [List.append_nil] at hskip
  have hequals : '=' ∉ name := fun hmem => by cases hword '=' hmem
  unfold Statement.parse
  dsimp only
  rw [hstart, Literal.name?_identifier h]
  exact if_neg (by simpa using hequals)

/-- **A name that is bound is read back** by a statement that consists of the name. -/
theorem executeLine_identifier {name : Text} (h : name.isIdentifier = true)
    (hget : env.get? name = some v) (line : Nat) : env.executeLine name line = (env, .ok v) := by
  rw [executeLine_of_parse (statement_identifier h line), answer, evaluate_identifier h, lookup, hget]
  rfl

end Environment

/-! ## 4. Lines -/

variable {R : Position → Position → Prop}

/-- One statement at two places. -/
inductive SameStatement (R : Position → Position → Prop) : Statement → Statement → Prop
  | expression {text : Text} {p q : Position} :
      R p q → SameStatement R (.expression text p) (.expression text q)
  | assignment {name value : Text} {p p' q q' : Position} :
      R p q → R p' q' → SameStatement R (.assignment name value p p') (.assignment name value q q')
  | compound {name value : Text} {op : Operator} {p p' q q' : Position} :
      R p q → R p' q' → SameStatement R (.compound name op value p p') (.compound name op value q q')
  | increment {name : Text} {p q : Position} :
      R p q → SameStatement R (.increment name p) (.increment name q)
  | decrement {name : Text} {p q : Position} :
      R p q → SameStatement R (.decrement name p) (.decrement name q)

namespace Statement

open Abacus.Expr (Moves)

theorem rel_ofTarget? (hmoves : Moves R) {p q p' q' : Position} (hR : R p q) (hR' : R p' q')
    (name : Text) (after : Cursor) :
    Option.Rel (SameStatement R) (ofTarget? name p p' after) (ofTarget? name q q' after) := by
  unfold ofTarget?
  dsimp only
  split
  · exact .some (.increment hR')
  · split
    · exact .some (.decrement hR')
    · split
      · exact .some (.compound (hmoves p q hR _) hR')
      · split
        · exact .some (.assignment (hmoves p q hR _) hR')
        · exact .none

/-- The statement on a line that starts with a target. -/
def named? (text : Text) (line : Nat) : Option Statement :=
  match Literal.name? (Cursor.start text).skipBlanks with
  | none => none
  | some (name, after) =>
    ofTarget? name (.inLine line 0) ((Cursor.start text).skipBlanks.position (.inLine line 0))
      after.skipBlanks

/-- What a line without a target is: an expression, or an error if there is an equals sign. -/
def plain (text : Text) (line : Nat) : Except Error Statement :=
  if text.contains '=' then
    .error ⟨.invalidAssignmentTarget (invalidTarget text),
      (Cursor.start text).skipBlanks.position (.inLine line 0)⟩
  else .ok (.expression text (.inLine line 0))

theorem parse_eq (text : Text) (line : Nat) :
    parse text line = (named? text line).elim (plain text line) .ok := by
  unfold parse named? plain
  dsimp only
  cases Literal.name? (Cursor.start text).skipBlanks with
  | none => rfl
  | some found =>
    dsimp only
    cases ofTarget? found.1 _ _ found.2.skipBlanks <;> rfl

/-- A text that is no statement has no target in front of its equals sign. -/
theorem eq_of_parse_error {text : Text} {line : Nat} {e : Error} (h : parse text line = .error e) :
    e = ⟨.invalidAssignmentTarget (invalidTarget text),
      (Cursor.start text).skipBlanks.position (.inLine line 0)⟩ := by
  rw [parse_eq] at h
  cases hnamed : named? text line with
  | some s =>
    rw [hnamed] at h
    cases h
  | none =>
    rw [hnamed, Option.elim_none, plain] at h
    split at h
    · cases h
      rfl
    · cases h

/-- Lines with corresponding statements behind their targets are corresponding statements, if they
are without their targets. -/
theorem corresponds_parse_of_named {S : Statement → Statement → Prop} {text text' : Text}
    {line line' : Nat} (hnamed : Option.Rel S (named? text line) (named? text' line'))
    (hplain : Corresponds R S (plain text line) (plain text' line')) :
    Corresponds R S (parse text line) (parse text' line') := by
  rw [parse_eq, parse_eq]
  generalize named? text line = statement at hnamed ⊢
  generalize named? text' line' = statement' at hnamed ⊢
  cases hnamed with
  | some hsame => exact hsame
  | none => exact hplain

theorem corresponds_parse (hmoves : Moves R) {line line' : Nat}
    (hR : R (.inLine line 0) (.inLine line' 0)) (text : Text) :
    Corresponds R (SameStatement R) (parse text line) (parse text line') := by
  have hfirst : R ((Cursor.start text).skipBlanks.position (.inLine line 0))
      ((Cursor.start text).skipBlanks.position (.inLine line' 0)) := hmoves _ _ hR _
  refine corresponds_parse_of_named ?_ ?_
  · unfold named?
    cases Literal.name? (Cursor.start text).skipBlanks with
    | none => exact .none
    | some found => exact rel_ofTarget? hmoves hR hfirst found.1 found.2.skipBlanks
  · unfold plain
    split
    · exact corresponds_error hfirst _ _
    · exact .expression hR

end Statement

/-- Two texts, each at its place, have corresponding values, whatever names are bound. -/
def EvaluatesAlike (R : Position → Position → Prop) (text : Text) (p : Position) (text' : Text)
    (q : Position) : Prop :=
  ∀ env : Environment, Corresponds R Eq (env.evaluate text p) (env.evaluate text' q)

/-- One statement at two places, with texts of its value that may differ in form only. -/
inductive AlikeStatement (R : Position → Position → Prop) : Statement → Statement → Prop
  | expression {text text' : Text} {p q : Position} :
      EvaluatesAlike R text p text' q →
        AlikeStatement R (.expression text p) (.expression text' q)
  | assignment {name value value' : Text} {p p' q q' : Position} :
      EvaluatesAlike R value p value' q → R p' q' →
        AlikeStatement R (.assignment name value p p') (.assignment name value' q q')
  | compound {name value value' : Text} {op : Operator} {p p' q q' : Position} :
      EvaluatesAlike R value p value' q → R p' q' →
        AlikeStatement R (.compound name op value p p') (.compound name op value' q q')
  | increment {name : Text} {p q : Position} :
      R p q → AlikeStatement R (.increment name p) (.increment name q)
  | decrement {name : Text} {p q : Position} :
      R p q → AlikeStatement R (.decrement name p) (.decrement name q)

theorem SameStatement.alike (hmoves : Expr.Moves R) {s s' : Statement} (h : SameStatement R s s') :
    AlikeStatement R s s' := by
  have hvalue : ∀ {p q : Position}, R p q → ∀ text, EvaluatesAlike R text p text q :=
    fun hR text env => env.corresponds_evaluate hmoves hR text
  cases h with
  | expression hR => exact .expression (hvalue hR _)
  | assignment hR hR' => exact .assignment (hvalue hR _) hR'
  | compound hR hR' => exact .compound (hvalue hR _) hR'
  | increment hR => exact .increment hR
  | decrement hR => exact .decrement hR

theorem AlikeStatement.target?_eq {s s' : Statement} (h : AlikeStatement R s s') :
    s.target? = s'.target? := by
  cases h <;> rfl

theorem rel_alike (hmoves : Expr.Moves R) {s s' : Option Statement}
    (h : Option.Rel (SameStatement R) s s') : Option.Rel (AlikeStatement R) s s' := by
  cases h with
  | some h => exact .some (h.alike hmoves)
  | none => exact .none

namespace Environment

open Abacus.Expr (Moves)

variable (env : Environment)

/-- **Statements that are alike** answer alike. -/
theorem corresponds_answer {s s' : Statement} (h : AlikeStatement R s s') :
    Corresponds R Eq (env.answer s) (env.answer s') := by
  cases h with
  | expression hvalue => exact hvalue env
  | @assignment name value value' p p' q q' hvalue hR' =>
    have hcheck : Corresponds R Eq (env.checkFree name p') (env.checkFree name q') := by
      unfold checkFree
      split
      · exact corresponds_error hR' _ _
      · exact rfl
    exact hcheck.bind (fun _ _ _ => hvalue env)
  | @compound name value value' op p p' q q' hvalue hR' =>
    refine (env.corresponds_lookup hR' name).bind ?_
    rintro old _ rfl
    refine (hvalue env).bind ?_
    rintro operand _ rfl
    exact Value.corresponds_combine hR' op old operand
  | @increment name p q hR =>
    refine (env.corresponds_lookup hR name).bind ?_
    rintro old _ rfl
    exact rfl
  | @decrement name p q hR =>
    refine (env.corresponds_lookup hR name).bind ?_
    rintro old _ rfl
    exact rfl

/-- Answers that correspond leave the same environment behind. -/
theorem settle_eq_of_corresponds {x y : Except Error Value} (h : Corresponds R Eq x y)
    (target? : Option Text) : env.settle target? x = env.settle target? y := by
  rcases h.cases with ⟨v, _, rfl, rfl, rfl⟩ | ⟨cause, p, q, rfl, rfl, -⟩ <;> rfl

/-- **Lines that are alike** do the same: they leave the same environment behind, and their answers
correspond. -/
theorem corresponds_executeLine_of_parse {text text' : Text} {line line' : Nat}
    (h : Corresponds R (AlikeStatement R) (Statement.parse text line) (Statement.parse text' line')) :
    (env.executeLine text line).1 = (env.executeLine text' line').1 ∧
      Corresponds R Eq (env.executeLine text line).2 (env.executeLine text' line').2 := by
  rcases h.cases with ⟨s, s', hs, hs', halike⟩ | ⟨cause, p, q, hs, hs', hR⟩
  · have hanswer := env.corresponds_answer halike
    rw [executeLine_of_parse hs, executeLine_of_parse hs', halike.target?_eq]
    exact ⟨env.settle_eq_of_corresponds hanswer _, hanswer⟩
  · rw [executeLine_of_parse_error hs, executeLine_of_parse_error hs']
    exact ⟨rfl, corresponds_error hR cause Eq⟩

/-- **A statement on two lines** does the same, up to the positions of errors. -/
theorem corresponds_executeLine (hmoves : Moves R) (line line' : Nat)
    (hR : R (.inLine line 0) (.inLine line' 0)) (text : Text) :
    (env.executeLine text line).1 = (env.executeLine text line').1 ∧
      Corresponds R Eq (env.executeLine text line).2 (env.executeLine text line').2 :=
  env.corresponds_executeLine_of_parse
    ((Statement.corresponds_parse hmoves hR text).mono (fun _ _ h => h.alike hmoves))

/-- The error of a statement is on the line of the statement. -/
theorem line_of_executeLine {text : Text} {line : Nat} {e : Error}
    (h : (env.executeLine text line).2 = .error e) : e.position.line = line := by
  have hmoves : Moves (fun p q => p.line = line ∧ q.line = line) := fun _ _ hR _ => hR
  obtain ⟨-, hsame⟩ := env.corresponds_executeLine hmoves line line ⟨rfl, rfl⟩ text
  rw [h] at hsame
  exact hsame.2.1

end Environment

/-- The position some lines further down. -/
def Position.down (p : Position) (lines : Nat) : Position := ⟨p.line + lines, p.column⟩

/-- The error some lines further down. -/
def Error.down (e : Error) (lines : Nat) : Error := ⟨e.cause, e.position.down lines⟩

namespace Environment

/-- On a line further down, a statement does the same, and its error is that much further down. -/
theorem executeLine_add (env : Environment) (text : Text) (line lines : Nat) :
    env.executeLine text (line + lines)
      = Run.mapError (fun e => e.down lines) (env.executeLine text line) := by
  have hmoves : Expr.Moves (fun p q => p = q.down lines) := by
    rintro _ q rfl bytes
    rfl
  obtain ⟨hafter, hanswer⟩ := env.corresponds_executeLine hmoves (line + lines) line rfl text
  exact Prod.ext hafter hanswer.eq_mapError

end Environment
end Abacus
