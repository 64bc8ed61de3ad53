/-
# The script drivers agree

Three loops read scripts: running a script from outside, which ends at the first error, and the batch
loop with its values printed or held back, which passes errors by.  The batch loop reads a file or a
stream.  All of them come down to what the statement lines answer with (`outcomes`), one line after the
other, in the environment that the lines before have left.

The batch loop writes the values and the messages of these answers, each on a line of its own.  It
prints all values or the last one only, so the second is the last line of the first: no value is written
with a line feed in it.  A script that succeeds has values for answers, and one that fails has values up
to the first error; there it stops, and the batch loop has written the same up to that point.

A stream is cut before it is decoded.  That makes no difference (`streamLines_bytes`).

Main statements:

* `runBatch_printed` and `runBatch_held`: what the batch loop writes;
* `outcomes_of_runLines_ok` and `outcomes_append`: what the statement lines answer with, up to the first
  error;
* `drivers_agree`: how the drivers agree, with its parts in `DriversAgree`.
-/
import Abacus.CommandLine
import Abacus.Proofs.Session.Messages
import Abacus.Proofs.Session.Scripts
import Abacus.Proofs.Text.Streams
import Abacus.Proofs.Value.OneLine

namespace Abacus

open Text (lines linesWithEnds)

/-! ## 1. Answers of statement lines -/

/-- The values among answers. -/
def valuesOf (answers : List (Except Error Value)) : List Value :=
  answers.filterMap (fun answer => match answer with
    | .ok v => some v
    | .error _ => none)

/-- The errors among answers. -/
def errorsOf (answers : List (Except Error Value)) : List Error :=
  answers.filterMap (fun answer => match answer with
    | .ok _ => none
    | .error e => some e)

theorem valuesOf_map_ok (vs : List Value) : valuesOf (vs.map .ok) = vs := by
  simp [valuesOf, List.filterMap_map]

theorem errorsOf_map_ok (vs : List Value) : errorsOf (vs.map .ok) = [] := by
  simp [errorsOf, List.filterMap_map]

theorem valuesOf_cons_ok (v : Value) (answers : List (Except Error Value)) :
    valuesOf (.ok v :: answers) = v :: valuesOf answers := rfl

theorem valuesOf_append (first rest : List (Except Error Value)) :
    valuesOf (first ++ rest) = valuesOf first ++ valuesOf rest :=
  List.filterMap_append

theorem errorsOf_append (first rest : List (Except Error Value)) :
    errorsOf (first ++ rest) = errorsOf first ++ errorsOf rest :=
  List.filterMap_append

/-- A value in front of others is the last one only if there are no others. -/
theorem getLast?_cons_or (v : Value) (vs : List Value) (held : Option Value) :
    (v :: vs).getLast?.or held = vs.getLast?.or (some v) := by
  rw [List.getLast?_cons]
  cases vs.getLast? <;> rfl

namespace Environment

/-- What the statement lines answer with, from a line number on.  The lines behind a line go on in the
environment that it leaves, whether it fails or not. -/
def outcomes (env : Environment) : Nat → List Text → List (Except Error Value)
  | _, [] => []
  | number, line :: ls =>
    if isSkipped line then env.outcomes (number + 1) ls
    else
      let (after, result) := env.executeLine line number
      result :: after.outcomes (number + 1) ls

section Outcomes

variable {env after : Environment} {last result : Option Value} {number : Nat} {ls : List Text}

theorem outcomes_skipped {line : Text} (h : isSkipped line = true) (ls : List Text) :
    env.outcomes number (line :: ls) = env.outcomes (number + 1) ls := by
  rw [outcomes, if_pos h]

theorem outcomes_statement {line : Text} {result : Except Error Value} (hskip : isSkipped line = false)
    (h : env.executeLine line number = (after, result)) (ls : List Text) :
    env.outcomes number (line :: ls) = result :: after.outcomes (number + 1) ls := by
  rw [outcomes, if_neg (by simp [hskip]), h]

/-- **A run that succeeds** has values for answers, and the last one is its result. -/
theorem outcomes_of_runLines_ok (h : env.runLines last number ls = (after, .ok result)) :
    ∃ vs : List Value, env.outcomes number ls = vs.map .ok ∧ result = vs.getLast?.or last := by
  induction ls generalizing env last number with
  | nil =>
    cases h
    exact ⟨[], rfl, rfl⟩
  | cons line ls ih =>
    cases hskip : isSkipped line with
    | true =>
      rw [runLines_skipped hskip] at h
      rw [outcomes_skipped hskip]
      exact ih h
    | false =>
      rw [runLines_statement hskip] at h
      rcases hline : env.executeLine line number with ⟨next, answer⟩
      rw [hline] at h
      cases answer with
      | error e => cases h
      | ok v =>
        obtain ⟨vs, hvs, hlast⟩ := ih h
        refine ⟨v :: vs, ?_, ?_⟩
        · rw [outcomes_statement hskip hline, hvs, List.map_cons]
        · rw [hlast, getLast?_cons_or]

/-- Behind a run that succeeds, the lines go on in the environment that it leaves. -/
theorem outcomes_append (h : env.runLines last number ls = (after, .ok result)) (more : List Text) :
    env.outcomes number (ls ++ more)
      = env.outcomes number ls ++ after.outcomes (number + ls.length) more := by
  induction ls generalizing env last number with
  | nil =>
    cases h
    rfl
  | cons line ls ih =>
    rw [List.cons_append, List.length_cons, Nat.add_comm ls.length, ← Nat.add_assoc]
    cases hskip : isSkipped line with
    | true =>
      rw [runLines_skipped hskip] at h
      rw [outcomes_skipped hskip, outcomes_skipped hskip, ih h]
    | false =>
      rw [runLines_statement hskip] at h
      rcases hline : env.executeLine line number with ⟨next, answer⟩
      rw [hline] at h
      cases answer with
      | error e => cases h
      | ok v => rw [outcomes_statement hskip hline, outcomes_statement hskip hline, ih h, List.cons_append]

end Outcomes

end Environment

/-! ## 2. What the batch loop writes -/

/-- Texts that are written with a line feed behind each of them. -/
def written (texts : List Text) : Text := texts.flatMap (fun text => text ++ ['\n'])

/-- The values among answers, as they are printed. -/
def printedValues (answers : List (Except Error Value)) : Text :=
  written ((valuesOf answers).map Value.render)

/-- The errors among answers, as they are reported. -/
def reportedErrors (answers : List (Except Error Value)) : Text :=
  written ((errorsOf answers).map (fun e => e.message.toList))

theorem written_append (texts more : List Text) :
    written (texts ++ more) = written texts ++ written more :=
  List.flatMap_append

/-- A value that is released at the end, if there is one. -/
def released : Option Value → Text
  | some v => v.render ++ ['\n']
  | none => []

namespace Loop

section Steps

variable (s : Loop) {line : Text} (ls : List Text)

theorem runBatch_cons (hold : Bool) (line : Text) : s.runBatch hold ((line :: ls).map some)
    = ((s.batchStep hold line).1.runBatch hold (ls.map some)).after (s.batchStep hold line).2 := rfl

theorem runBatch_skipped (hold : Bool) (h : Environment.isSkipped line = true) :
    s.runBatch hold ((line :: ls).map some) = s.skipLine.runBatch hold (ls.map some) := by
  rw [runBatch_cons, batchStep, if_pos h]
  rfl

variable (hskip : Environment.isSkipped line = false) {after : Environment}

include hskip

theorem runBatch_error (hold : Bool) {e : Error}
    (h : s.env.executeLine line s.number = (after, .error e)) : s.runBatch hold ((line :: ls).map some)
      = (runBatch hold ⟨after, s.number + 1, s.held⟩ (ls.map some)).after (.complaint e.message) := by
  rw [runBatch_cons, batchStep, if_neg (by simp [hskip]), h]

variable {v : Value} (h : s.env.executeLine line s.number = (after, .ok v))

include h

theorem runBatch_ok_printed : s.runBatch false ((line :: ls).map some)
    = (runBatch false ⟨after, s.number + 1, s.held⟩ (ls.map some)).after (.line v.render) := by
  rw [runBatch_cons, batchStep, if_neg (by simp [hskip]), h]
  rfl

theorem runBatch_ok_held : s.runBatch true ((line :: ls).map some)
    = runBatch true ⟨after, s.number + 1, some v⟩ (ls.map some) := by
  rw [runBatch_cons, batchStep, if_neg (by simp [hskip]), h]
  rfl

end Steps

theorem release_eq (s : Loop) : s.release = ⟨released s.held, []⟩ := by
  unfold release
  cases s.held <;> rfl

/-- **The batch loop** prints all values. -/
theorem runBatch_printed (s : Loop) (ls : List Text) (hheld : s.held = none) :
    s.runBatch false (ls.map some) = ⟨⟨printedValues (s.env.outcomes s.number ls),
      reportedErrors (s.env.outcomes s.number ls)⟩, 0⟩ := by
  induction ls generalizing s with
  | nil =>
    rw [List.map_nil, runBatch, release_eq, hheld]
    rfl
  | cons line ls ih =>
    cases hskip : Environment.isSkipped line with
    | true =>
      rw [runBatch_skipped _ _ _ hskip, Environment.outcomes_skipped hskip]
      exact ih _ hheld
    | false =>
      rcases hline : s.env.executeLine line s.number with ⟨after, answer⟩
      rw [Environment.outcomes_statement hskip hline]
      cases answer with
      | error e =>
        rw [runBatch_error _ _ hskip _ hline, ih ⟨after, s.number + 1, s.held⟩ hheld]
        rfl
      | ok v =>
        rw [runBatch_ok_printed _ _ hskip hline, ih ⟨after, s.number + 1, s.held⟩ hheld]
        rfl

/-- **The batch loop that holds values back** prints the last value only. -/
theorem runBatch_held (s : Loop) (ls : List Text) :
    s.runBatch true (ls.map some)
      = ⟨⟨released ((valuesOf (s.env.outcomes s.number ls)).getLast?.or s.held),
        reportedErrors (s.env.outcomes s.number ls)⟩, 0⟩ := by
  induction ls generalizing s with
  | nil =>
    rw [List.map_nil, runBatch, release_eq]
    rfl
  | cons line ls ih =>
    cases hskip : Environment.isSkipped line with
    | true =>
      rw [runBatch_skipped _ _ _ hskip, Environment.outcomes_skipped hskip]
      exact ih _
    | false =>
      rcases hline : s.env.executeLine line s.number with ⟨after, answer⟩
      rw [Environment.outcomes_statement hskip hline]
      cases answer with
      | error e =>
        rw [runBatch_error _ _ hskip _ hline, ih]
        rfl
      | ok v =>
        rw [runBatch_ok_held _ _ hskip hline, ih, valuesOf_cons_ok, getLast?_cons_or]
        rfl

end Loop

/-! ## 3. Streams -/

/-- **A stream of the bytes of a text** has the lines of the text. -/
theorem streamLines_bytes (source : Text) :
    streamLines (Text.bytes source) = (linesWithEnds source).map some := by
  unfold streamLines
  rw [Text.cutAfter_bytes, List.map_map]
  exact List.map_congr_left (fun line _ => Text.ofBytes?_bytes line)

namespace Options

/-- A file with the bytes of a text. -/
theorem runFile_bytes (options : Options) (path : String) (source : Text) :
    options.runFile path (some (Text.bytes source))
      = (Loop.start options.environment).runBatch options.pipe ((lines source).map some) := by
  unfold runFile
  rw [Option.bind_some, Text.ofBytes?_bytes]

/-- A stream with the bytes of a text. -/
theorem runStream_bytes (options : Options) (source : Text) :
    options.runStream (Text.bytes source)
      = (Loop.start options.environment).runBatch options.pipe ((lines source).map some) := by
  unfold runStream
  rw [streamLines_bytes, List.map_map, lines, List.map_map]
  rfl

end Options

/-! ## 4. The drivers -/

/-- How the outcome of printing all values and the outcome of printing the last value of one script
agree with each other and with the script. -/
structure DriversAgree (strict : Bool) (source : Text) (plain piped : Outcome) : Prop where
  /-- What is printed last is the last line of what is printed. -/
  lastLine : piped.output.out = (linesWithEnds plain.output.out).getLast?.getD []
  /-- The same errors are reported. -/
  errors : piped.output.err = plain.output.err
  /-- Neither of the two fails. -/
  exitCodes : plain.exitCode = 0 ∧ piped.exitCode = 0
  /-- A script that succeeds reports no errors, and its result is printed last. -/
  success : ∀ after result, (Environment.fresh strict).runScript source = (after, .ok result) →
    plain.output.err = [] ∧ piped.output.out = released result
  /-- The error of a script that fails is the first one that is reported, and what is printed starts
  with the values of the statement lines before it. -/
  failure : ∀ after e, (Environment.fresh strict).runScript source = (after, .error e) →
    (linesWithEnds plain.output.err).head? = some (e.message.toList ++ ['\n']) ∧
      ∃ vs : List Value, (Environment.fresh strict).outcomes 1
          ((lines source).take (e.position.line - 1)) = vs.map .ok ∧
        written (vs.map Value.render) <+: plain.output.out

section Agreement

variable {strict : Bool} {source : Text}

/-- Written texts without line feeds end in the last one of them. -/
theorem getLast?_written {texts : List Text} (h : ∀ text ∈ texts, '\n' ∉ text) :
    (linesWithEnds (written texts)).getLast? = texts.getLast?.map (fun text => text ++ ['\n']) := by
  unfold written
  rw [Text.linesWithEnds_flatMap h, List.getLast?_map]

/-- The value that is released is the last line of all values. -/
theorem released_getLast? (vs : List Value) :
    released vs.getLast? = (linesWithEnds (written (vs.map Value.render))).getLast?.getD [] := by
  have hlines : ∀ text ∈ vs.map Value.render, '\n' ∉ text :=
    List.forall_mem_map.mpr (fun v _ => v.newline_notMem_render)
  rw [getLast?_written hlines, List.getLast?_map]
  cases vs.getLast? <;> rfl

/-- The first error is the first line that is reported. -/
theorem head?_reportedErrors (vs : List Value) {e : Error} (rest : List (Except Error Value))
    (h : OnOneLine e.message) : (linesWithEnds (reportedErrors (vs.map .ok ++ .error e :: rest))).head?
      = some (e.message.toList ++ ['\n']) := by
  have herrors : errorsOf (vs.map .ok ++ .error e :: rest) = e :: errorsOf rest := by
    rw [errorsOf_append, errorsOf_map_ok]
    rfl
  rw [reportedErrors, herrors, List.map_cons, written, List.flatMap_cons, List.append_assoc,
    List.singleton_append, linesWithEnds, Text.cutAfter_unmarked_mark h]
  rfl

/-- Behind the values of the first lines come the values of the others. -/
theorem prefix_printedValues (vs : List Value) (rest : List (Except Error Value)) :
    written (vs.map Value.render) <+: printedValues (vs.map .ok ++ rest) := by
  rw [printedValues, valuesOf_append, valuesOf_map_ok, List.map_append, written_append]
  exact List.prefix_append _ _

/-- **The error of a script** is the first one that is reported, behind the values of the lines before
it. -/
theorem outcomes_of_runScript_error {env after : Environment} {e : Error}
    (h : env.runScript source = (after, .error e)) :
    ∃ (vs : List Value) (rest : List (Except Error Value)),
      env.outcomes 1 ((lines source).take (e.position.line - 1)) = vs.map .ok ∧
        env.outcomes 1 (lines source) = vs.map .ok ++ .error e :: rest ∧ OnOneLine e.message := by
  obtain ⟨before, line, rest, value, hlines, hrun, hskip, herror⟩ :=
    Environment.exists_of_runLines_error h
  obtain ⟨vs, hvs, -⟩ := Environment.outcomes_of_runLines_ok hrun
  have htake : (lines source).take (e.position.line - 1) = before := by
    rw [Environment.line_of_executeLine _ (congrArg Prod.snd herror), Nat.add_sub_cancel_left, hlines,
      List.take_left]
  have hline : '\n' ∉ line := by
    have hmem : line ∈ lines source := by
      rw [hlines]
      exact List.mem_append_right before List.mem_cons_self
    exact Text.newline_notMem_of_mem_lines hmem
  refine ⟨vs, after.outcomes (1 + before.length + 1) rest, ?_, ?_, ?_⟩
  · rw [htake, hvs]
  · rw [hlines, Environment.outcomes_append hrun, hvs, Environment.outcomes_statement hskip herror]
  · exact after.onOneLine_of_executeLine hline (congrArg Prod.snd herror)

/-- The batch loop agrees with the script, whether it prints or holds back. -/
theorem driversAgree_runBatch (strict : Bool) (source : Text) : DriversAgree strict source
    ((Loop.start (.fresh strict)).runBatch false ((lines source).map some))
    ((Loop.start (.fresh strict)).runBatch true ((lines source).map some)) := by
  have hplain := (Loop.start (.fresh strict)).runBatch_printed (lines source) rfl
  have hpiped := (Loop.start (.fresh strict)).runBatch_held (lines source)
  rw [hplain, hpiped]
  dsimp only [Loop.start]
  rw [Option.or_none]
  constructor
  · exact released_getLast? _
  · rfl
  · exact ⟨rfl, rfl⟩
  · intro after result h
    obtain ⟨vs, hvs, hlast⟩ := Environment.outcomes_of_runLines_ok h
    rw [Option.or_none] at hlast
    rw [hvs, valuesOf_map_ok, hlast]
    refine ⟨?_, rfl⟩
    rw [reportedErrors, errorsOf_map_ok]
    rfl
  · intro after e h
    obtain ⟨vs, rest, htake, hall, hmessage⟩ := outcomes_of_runScript_error h
    rw [hall]
    exact ⟨head?_reportedErrors vs rest hmessage, vs, htake, prefix_printedValues vs _⟩

end Agreement

/-- **The drivers agree.**  A source is run from a file with all values printed, from a file with the
last value printed, and from a stream with the last value printed. -/
theorem drivers_agree (strict : Bool) (source : Text) (path : String)
    (files : String → Option (List UInt8)) (input : List UInt8)
    (hfile : files path = some (Text.bytes source)) :
    DriversAgree strict source (Options.run ⟨some path, strict, false⟩ files input)
        (Options.run ⟨some path, strict, true⟩ files input) ∧
      DriversAgree strict source (Options.run ⟨some path, strict, false⟩ files input)
        (Options.run ⟨none, strict, true⟩ files (Text.bytes source)) := by
  have hrun : ∀ pipe : Bool, Options.run ⟨some path, strict, pipe⟩ files input
      = (Loop.start (.fresh strict)).runBatch pipe ((lines source).map some) := by
    intro pipe
    simp only [Options.run, hfile]
    exact Options.runFile_bytes _ path source
  have hstream : Options.run ⟨none, strict, true⟩ files (Text.bytes source)
      = (Loop.start (.fresh strict)).runBatch true ((lines source).map some) :=
    Options.runStream_bytes ⟨none, strict, true⟩ source
  rw [hrun, hrun, hstream]
  exact ⟨driversAgree_runBatch strict source, driversAgree_runBatch strict source⟩

namespace Example

/-- A comment, two values, and an error between them. -/
def script : Text := "// twice\nx = 2\n\ny\nx += 2\n".toList

/-- A file with the script in it, and the script as a stream. -/
theorem drivers_agree_script : DriversAgree true script
      (Options.run ⟨some "script", true, false⟩ (fun _ => some (Text.bytes script)) [])
      (Options.run ⟨some "script", true, true⟩ (fun _ => some (Text.bytes script)) []) ∧
    DriversAgree true script
      (Options.run ⟨some "script", true, false⟩ (fun _ => some (Text.bytes script)) [])
      (Options.run ⟨none, true, true⟩ (fun _ => some (Text.bytes script)) (Text.bytes script)) :=
  drivers_agree true script "script" (fun _ => some (Text.bytes script)) [] rfl

example : Options.run ⟨none, true, true⟩ (fun _ => none) (Text.bytes script)
    = ⟨⟨"4\n".toList, "Error on line 4, column 1: Unknown variable 'y'.\n".toList⟩, 0⟩ := by decide +kernel

end Example

end Abacus
