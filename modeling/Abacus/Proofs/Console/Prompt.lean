/-
# The prompt loop writes what the batch loop writes

The prompt loop and the batch loop run the same statements in the same environments under the same line
numbers.  They differ in three ways.  The prompt loop writes a prompt before each line and one more at
the end.  It takes all line feeds and carriage returns off the end of a line, where the batch loop takes
one line end.  And it runs comments, which the batch loop passes by; a comment is an error then, so it
prints no value and binds no name, and all that it leaves behind is its message.

One step of the one loop is compared with one step of the other (`promptStep_of_isComment` and
`promptStep_of_statement`): from one state both lead to one state, and they print the same.  Two whole
runs are compared by their transcripts, which say line by line what is written.

Main statements:

* `runBatch_transcript` and `runPrompt_transcript`: a run writes what is in its transcript;
* `forall₂_transcript`: the transcripts of the two loops, line by line;
* `prompt_agrees`: how the two loops agree, with its parts in `PromptAgrees`.
-/
import Mathlib.Data.List.DropRight
import Abacus.Proofs.Console.Drivers
import Abacus.Proofs.Session.Comments

namespace Abacus

open Text (lines linesWithEnds)

/-! ## 1. Transcripts -/

/-- A line and what a loop writes for it. -/
structure Entry where
  /-- The line. -/
  line : Text
  /-- What is written between it and the next line. -/
  output : Output

/-- All that is printed for the lines. -/
def printedFor (entries : List Entry) : Text := entries.flatMap (fun entry => entry.output.out)

/-- All that is reported about the lines. -/
def reportedFor (entries : List Entry) : Text := entries.flatMap (fun entry => entry.output.err)

/-- What is written for one line: nothing, a line with a value, or a line about an error. -/
def Output.IsReply (output : Output) : Prop :=
  output = .nothing ∨ (∃ v : Value, output = .line v.render) ∨
    ∃ message, OnOneLine message ∧ output = .complaint message

namespace Loop

/-- What a loop writes for each line, up to a line that ends the loop. -/
def transcript (step : Loop → Text → Option (Loop × Output)) (s : Loop) : List Text → List Entry
  | [] => []
  | line :: ls =>
    match step s line with
    | none => []
    | some (next, output) => ⟨line, output⟩ :: next.transcript step ls

/-- One line of the batch loop that prints every value; no line ends it. -/
def printStep (s : Loop) (line : Text) : Option (Loop × Output) := some (s.batchStep false line)

section Transcripts

variable {step : Loop → Text → Option (Loop × Output)} {s next : Loop} {output : Output} {line : Text}

theorem transcript_cons (h : step s line = some (next, output)) (ls : List Text) :
    s.transcript step (line :: ls) = ⟨line, output⟩ :: next.transcript step ls := by
  rw [transcript, h]

end Transcripts

/-- Printing holds no value back. -/
theorem held_batchStep (s : Loop) (line : Text) : (s.batchStep false line).1.held = s.held := by
  unfold batchStep
  split
  · rfl
  · split <;> rfl

/-- **The batch loop** writes what is in its transcript. -/
theorem runBatch_transcript (s : Loop) (ls : List Text) (hheld : s.held = none) :
    s.runBatch false (ls.map some) = ⟨⟨printedFor (s.transcript printStep ls),
      reportedFor (s.transcript printStep ls)⟩, 0⟩ := by
  induction ls generalizing s with
  | nil =>
    rw [List.map_nil, runBatch, release_eq, hheld]
    rfl
  | cons line ls ih =>
    rw [runBatch_cons, ih _ ((s.held_batchStep line).trans hheld), transcript_cons rfl]
    rfl

/-- **The prompt loop** writes what is in its transcript, with prompts in between, if no line ends it. -/
theorem runPrompt_transcript (s : Loop) (ls : List Text)
    (h : ∀ line ∈ ls, ∀ s : Loop, (s.promptStep line).isSome = true) :
    s.runPrompt (ls.map some)
      = ⟨⟨(s.transcript promptStep ls).flatMap (fun entry => "> ".toList ++ entry.output.out)
            ++ "> \n".toList, reportedFor (s.transcript promptStep ls)⟩, 0⟩ := by
  induction ls generalizing s with
  | nil => rfl
  | cons line ls ih =>
    obtain ⟨hline, hmore⟩ := List.forall_mem_cons.mp h
    obtain ⟨⟨next, output⟩, hstep⟩ := Option.isSome_iff_exists.mp (hline s)
    rw [List.map_cons, runPrompt, hstep, transcript_cons hstep]
    dsimp only
    rw [ih next hmore, List.flatMap_cons, List.append_assoc]
    rfl

end Loop

/-! ## 2. Line ends -/

namespace Text

/-- A character that the prompt loop takes off the end of a line. -/
def isLineEnd (c : Char) : Bool := c == '\n' || c == '\r'

/-- Trimming the end is dropping from the right. -/
theorem trimEndWhile_eq (p : Char → Bool) (text : Text) : trimEndWhile p text = text.rdropWhile p :=
  rfl

section Ends

variable {source line : Text} (hreturn : '\r' ∉ source)

include hreturn

/-- Without carriage returns, taking off all line ends or one line end is the same. -/
theorem trimEndWhile_of_mem_linesWithEnds (h : line ∈ linesWithEnds source) :
    trimEndWhile isLineEnd line = stripLineEnd line := by
  have hline : '\r' ∉ line := by
    intro hmem
    rw [← flatten_cutAfter '\n' source] at hreturn
    exact hreturn (List.mem_flatten_of_mem h hmem)
  have hplain : ∀ body : Text, '\n' ∉ body → '\r' ∉ body → trimEndWhile isLineEnd body = body := by
    intro body hfeed hreturn
    rw [trimEndWhile_eq, List.rdropWhile_eq_self_iff]
    intro hne hend
    have hlast := List.getLast_mem hne
    rw [isLineEnd, Bool.or_eq_true, beq_iff_eq, beq_iff_eq] at hend
    rcases hend with heq | heq
    · exact hfeed (heq ▸ hlast)
    · exact hreturn (heq ▸ hlast)
  rcases unmarked_of_mem_cutAfter h with hfeed | ⟨body, hfeed, rfl⟩
  · rw [hplain line hfeed hline, stripLineEnd_of_getLast?]
    exact fun hlast => hfeed (List.mem_of_getLast? hlast)
  · have hbody : '\r' ∉ body := fun hmem => hline (List.mem_append_left _ hmem)
    rw [trimEndWhile_eq, List.rdropWhile_concat_pos _ _ _ (by decide), ← trimEndWhile_eq,
      hplain body hfeed hbody, stripLineEnd_newline]
    exact fun hlast => hbody (List.mem_of_getLast? hlast)

/-- Nothing is left to be taken off. -/
theorem trimEndWhile_of_mem_lines (h : line ∈ lines source) :
    trimEndWhile isLineEnd line = line := by
  obtain ⟨piece, hpiece, rfl⟩ := List.mem_map.mp h
  rw [← trimEndWhile_of_mem_linesWithEnds hreturn hpiece]
  exact List.rdropWhile_idempotent _ _

end Ends

end Text

/-! ## 3. One line -/

namespace Loop

section Steps

variable {line : Text} (s : Loop) (hline : Text.trimEndWhile Text.isLineEnd line = line)
  (hword : endsPrompt (Text.trim line) = false)

/-- The prompt loop does not see the end of a line. -/
theorem promptStep_congr {line line' : Text}
    (h : Text.trimEndWhile Text.isLineEnd line = Text.trimEndWhile Text.isLineEnd line') :
    s.promptStep line = s.promptStep line' := by
  change Text.trimEndWhile (fun c => c == '\n' || c == '\r') line
    = Text.trimEndWhile (fun c => c == '\n' || c == '\r') line' at h
  unfold promptStep
  rw [h]

/-- The step of a line that is run as a statement, whatever it is. -/
def runStep (line : Text) : Loop × Output :=
  match s.env.executeLine line s.number with
  | (env, .error error) => (⟨env, s.number + 1, s.held⟩, .complaint error.message)
  | (env, .ok v) => (⟨env, s.number + 1, s.held⟩, .line v.render)

theorem batchStep_eq (line : Text) : s.batchStep false line
    = if Environment.isSkipped line then (s.skipLine, .nothing) else s.runStep line := by
  unfold batchStep runStep
  rcases s.env.executeLine line s.number with ⟨_, _ | _⟩ <;> rfl

include hline hword

theorem promptStep_eq : s.promptStep line
    = some (if (Text.trim line).isEmpty then (s.skipLine, .nothing) else s.runStep line) := by
  change Text.trimEndWhile (fun c => c == '\n' || c == '\r') line = line at hline
  unfold promptStep runStep
  dsimp only
  rw [hline, if_neg (by simp [hword])]
  split
  · rfl
  · rcases s.env.executeLine line s.number with ⟨_, _ | _⟩ <;> rfl

/-- **A line that is no comment** is the same step of both loops. -/
theorem promptStep_of_statement (h : Environment.isComment line = false) :
    s.promptStep line = s.printStep line := by
  rw [s.promptStep_eq hline hword, printStep, batchStep_eq, Environment.isSkipped_eq, h,
    Bool.or_false]

/-- **A comment** is an error for the prompt loop and nothing for the batch loop. -/
theorem promptStep_of_isComment (h : Environment.isComment line = true) :
    (∃ e, s.env.executeLine line s.number = (s.env, .error e) ∧
        s.promptStep line = some (s.skipLine, .complaint e.message)) ∧
      s.printStep line = some (s.skipLine, .nothing) := by
  have hfilled : (Text.trim line).isEmpty = false :=
    List.isEmpty_eq_false_iff.mpr (Environment.trim_ne_nil_of_isComment h)
  obtain ⟨e, he⟩ := s.env.exists_error_of_isComment h s.number
  refine ⟨⟨e, he, ?_⟩, ?_⟩
  · rw [s.promptStep_eq hline hword, if_neg (by simp [hfilled]), runStep, he]
    rfl
  · rw [printStep, batchStep_eq, Environment.isSkipped_eq, h, Bool.or_true, if_pos rfl]

end Steps

end Loop

/-! ## 4. All lines -/

/-- What the prompt loop and the batch loop write for one line. -/
structure SameEntry (said shown : Entry) : Prop where
  /-- The line is the same. -/
  line : said.line = shown.line
  /-- The same is printed. -/
  out : said.output.out = shown.output.out
  /-- It is a line of its own or nothing. -/
  isReply : said.output.IsReply
  /-- Nothing is written for a blank line. -/
  blank : Text.trim said.line = [] → said.output = .nothing
  /-- A comment is reported by the prompt loop only. -/
  comment : Environment.isComment said.line = true →
    (∃ message, OnOneLine message ∧ said.output = .complaint message) ∧ shown.output = .nothing
  /-- On any other line the two write the same. -/
  statement : Environment.isComment said.line = false → said.output = shown.output

namespace Loop

/-- What the batch loop writes for a line without line feeds takes a line or nothing. -/
theorem isReply_batchStep (s : Loop) {line : Text} (hline : '\n' ∉ line) :
    (s.batchStep false line).2.IsReply := by
  unfold batchStep
  split
  · exact Or.inl rfl
  · rcases h : s.env.executeLine line s.number with ⟨after, answer⟩
    cases answer with
    | error e =>
      have hmessage := s.env.onOneLine_of_executeLine hline (congrArg Prod.snd h)
      exact Or.inr (Or.inr ⟨e.message, hmessage, rfl⟩)
    | ok v => exact Or.inr (Or.inl ⟨v, rfl⟩)

theorem output_batchStep_of_blank (s : Loop) {line : Text} (h : Text.trim line = []) :
    (s.batchStep false line).2 = .nothing := by
  rw [batchStep_eq, Environment.isSkipped_eq, h]
  rfl

/-- **Line by line**, the transcripts of the two loops agree. -/
theorem forall₂_transcript (s : Loop) (ls : List Text)
    (hline : ∀ line ∈ ls, '\n' ∉ line ∧ Text.trimEndWhile Text.isLineEnd line = line)
    (hword : ∀ line ∈ ls, endsPrompt (Text.trim line) = false) :
    List.Forall₂ SameEntry (s.transcript promptStep ls) (s.transcript printStep ls) := by
  induction ls generalizing s with
  | nil => exact .nil
  | cons line ls ih =>
    obtain ⟨⟨hfeed, hend⟩, hlines⟩ := List.forall_mem_cons.mp hline
    obtain ⟨hfirst, hwords⟩ := List.forall_mem_cons.mp hword
    cases hcomment : Environment.isComment line with
    | true =>
      obtain ⟨⟨e, he, hsaid⟩, hshown⟩ := s.promptStep_of_isComment hend hfirst hcomment
      have hmessage := s.env.onOneLine_of_executeLine hfeed (congrArg Prod.snd he)
      rw [transcript_cons hsaid, transcript_cons hshown]
      refine .cons ⟨rfl, rfl, Or.inr (Or.inr ⟨_, hmessage, rfl⟩), fun hblank => ?_, ?_, ?_⟩
        (ih _ hlines hwords)
      · exact absurd hblank (Environment.trim_ne_nil_of_isComment hcomment)
      · exact fun _ => ⟨⟨_, hmessage, rfl⟩, rfl⟩
      · exact fun h => absurd (hcomment.symm.trans h) (by decide)
    | false =>
      have hsaid := s.promptStep_of_statement hend hfirst hcomment
      rw [transcript_cons hsaid, transcript_cons rfl]
      refine .cons ⟨rfl, rfl, s.isReply_batchStep hfeed, fun hblank => ?_, fun h => ?_, fun _ => rfl⟩
        (ih _ hlines hwords)
      · exact s.output_batchStep_of_blank hblank
      · exact absurd (hcomment.symm.trans h) (by decide)

/-- The prompt loop, given lines with their ends, has the run of the lines without them. -/
theorem runPrompt_linesWithEnds (s : Loop) {source : Text} (hreturn : '\r' ∉ source) :
    s.runPrompt ((linesWithEnds source).map some) = s.runPrompt ((lines source).map some) := by
  have hstep : ∀ line ∈ linesWithEnds source, ∀ s : Loop,
      s.promptStep line = s.promptStep (Text.stripLineEnd line) := by
    intro line hline s
    refine s.promptStep_congr ?_
    have hmem : Text.stripLineEnd line ∈ lines source := List.mem_map_of_mem hline
    rw [Text.trimEndWhile_of_mem_linesWithEnds hreturn hline,
      Text.trimEndWhile_of_mem_lines hreturn hmem]
  rw [lines]
  generalize linesWithEnds source = ls at hstep
  induction ls generalizing s with
  | nil => rfl
  | cons line ls ih =>
    obtain ⟨hline, hmore⟩ := List.forall_mem_cons.mp hstep
    rw [List.map_cons, List.map_cons, List.map_cons, runPrompt, runPrompt, hline s]
    cases s.promptStep (Text.stripLineEnd line) with
    | none => rfl
    | some next =>
      dsimp only
      rw [ih next.1 hmore]

end Loop

/-! ## 5. The two loops -/

/-- How the outcome of the prompt loop and that of the batch loop on one source agree.  `said` and `shown`
are what the two write line by line. -/
structure PromptAgrees (source : Text) (said shown : List Entry) (prompted plain : Outcome) : Prop where
  /-- Every line is answered by both, and only comments make a difference. -/
  entries : List.Forall₂ SameEntry said shown
  /-- The lines are those of the source. -/
  lines : shown.map Entry.line = lines source
  /-- The batch loop prints what it writes for the lines. -/
  plainOut : plain.output.out = printedFor shown
  /-- The prompt loop prints the same, with a prompt before each line and one at the end. -/
  promptedOut : prompted.output.out
    = shown.flatMap (fun entry => "> ".toList ++ entry.output.out) ++ "> \n".toList
  /-- The prompt loop reports what it writes about the lines. -/
  promptedErr : prompted.output.err = reportedFor said
  /-- The batch loop reports the same without the errors about comments. -/
  plainErr : plain.output.err
    = reportedFor (said.filter (fun entry => !Environment.isComment entry.line))
  /-- Neither of the two fails. -/
  exitCodes : prompted.exitCode = 0 ∧ plain.exitCode = 0

section SameEntries

variable {said shown : List Entry} (h : List.Forall₂ SameEntry said shown)

include h

/-- What is printed behind prompts is the same. -/
theorem flatMap_out_eq (front : Text) : said.flatMap (fun entry => front ++ entry.output.out)
    = shown.flatMap (fun entry => front ++ entry.output.out) := by
  induction h with
  | nil => rfl
  | cons hentry _ ih => rw [List.flatMap_cons, List.flatMap_cons, hentry.out, ih]

/-- The reports of the batch loop are those of the prompt loop that are not about comments. -/
theorem reportedFor_eq : reportedFor shown
    = reportedFor (said.filter (fun entry => !Environment.isComment entry.line)) := by
  unfold reportedFor
  induction h with
  | nil => rfl
  | @cons entry entry' _ _ hentry _ ih =>
    rw [List.flatMap_cons, List.filter_cons, ih]
    cases hcomment : Environment.isComment entry.line with
    | true =>
      rw [(hentry.comment hcomment).2]
      rfl
    | false =>
      rw [← hentry.statement hcomment]
      rfl

end SameEntries

/-- Every line is in the transcript of the batch loop. -/
theorem map_line_transcript (s : Loop) (ls : List Text) :
    (s.transcript Loop.printStep ls).map Entry.line = ls := by
  induction ls generalizing s with
  | nil => rfl
  | cons line ls ih => rw [Loop.transcript_cons rfl, List.map_cons, ih]

/-- **The prompt loop and the batch loop agree** on a source without carriage returns in which no line
ends the prompt loop. -/
theorem prompt_agrees (strict : Bool) (source : Text) (path : String)
    (files : String → Option (List UInt8)) (input : List UInt8)
    (hfile : files path = some (Text.bytes source)) (hreturn : '\r' ∉ source)
    (hword : ∀ line ∈ lines source,
      Text.trim line ≠ "exit".toList ∧ Text.trim line ≠ "quit".toList) :
    PromptAgrees source
      ((Loop.start (.fresh strict)).transcript Loop.promptStep (lines source))
      ((Loop.start (.fresh strict)).transcript Loop.printStep (lines source))
      (Options.run ⟨none, strict, false⟩ files (Text.bytes source))
      (Options.run ⟨some path, strict, false⟩ files input) := by
  have hends : ∀ line ∈ lines source, Loop.endsPrompt (Text.trim line) = false := by
    intro line hline
    obtain ⟨hexit, hquit⟩ := hword line hline
    rw [Loop.endsPrompt, Bool.or_eq_false_iff, beq_eq_false_iff_ne, beq_eq_false_iff_ne]
    exact ⟨hexit, hquit⟩
  have hplain : ∀ line ∈ lines source,
      '\n' ∉ line ∧ Text.trimEndWhile Text.isLineEnd line = line := fun line hline =>
    ⟨Text.newline_notMem_of_mem_lines hline, Text.trimEndWhile_of_mem_lines hreturn hline⟩
  have hstep : ∀ line ∈ lines source, ∀ s : Loop, (s.promptStep line).isSome = true := by
    intro line hline s
    rw [s.promptStep_eq (hplain line hline).2 (hends line hline)]
    rfl
  have hprompted : Options.run ⟨none, strict, false⟩ files (Text.bytes source)
      = (Loop.start (.fresh strict)).runPrompt ((lines source).map some) := by
    rw [← Loop.runPrompt_linesWithEnds _ hreturn, ← streamLines_bytes]
    rfl
  have hbatch : Options.run ⟨some path, strict, false⟩ files input
      = (Loop.start (.fresh strict)).runBatch false ((lines source).map some) := by
    simp only [Options.run, hfile]
    exact Options.runFile_bytes _ path source
  have hentries := (Loop.start (.fresh strict)).forall₂_transcript (lines source) hplain hends
  rw [hprompted, hbatch, Loop.runPrompt_transcript _ _ hstep, Loop.runBatch_transcript _ _ rfl,
    flatMap_out_eq hentries, reportedFor_eq hentries]
  exact ⟨hentries, map_line_transcript _ _, rfl, rfl, rfl, rfl, rfl, rfl⟩

namespace Example

/-- A comment with an equals sign, a value, a blank line and an error. -/
def dialogue : Text := "// a = 1\nx = 2\n\ny\n".toList

/-- The dialogue from a file and behind a prompt. -/
theorem prompt_agrees_dialogue :
    (fun _ : String => some (Text.bytes dialogue)) "dialogue" = some (Text.bytes dialogue) ∧
      '\r' ∉ dialogue ∧
      (∀ line ∈ lines dialogue, Text.trim line ≠ "exit".toList ∧ Text.trim line ≠ "quit".toList) ∧
      PromptAgrees dialogue
        ((Loop.start (.fresh true)).transcript Loop.promptStep (lines dialogue))
        ((Loop.start (.fresh true)).transcript Loop.printStep (lines dialogue))
        (Options.run ⟨none, true, false⟩ (fun _ => some (Text.bytes dialogue)) (Text.bytes dialogue))
        (Options.run ⟨some "dialogue", true, false⟩ (fun _ => some (Text.bytes dialogue)) []) := by
  have hreturn : '\r' ∉ dialogue := by decide
  have hword : ∀ line ∈ lines dialogue,
      Text.trim line ≠ "exit".toList ∧ Text.trim line ≠ "quit".toList := by decide
  exact ⟨rfl, hreturn, hword, prompt_agrees true dialogue "dialogue"
    (fun _ => some (Text.bytes dialogue)) [] rfl hreturn hword⟩

example : Options.run ⟨none, true, false⟩ (fun _ => none) (Text.bytes dialogue)
    = ⟨⟨"> > 2\n> > > \n".toList,
        ("Error on line 1, column 1: Cannot assign to '// a'.\n"
          ++ "Error on line 4, column 1: Unknown variable 'y'.\n").toList⟩, 0⟩ := by decide +kernel

end Example
end Abacus
