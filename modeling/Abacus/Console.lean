/-
# Running statements line by line

Two loops read lines.  The batch loop prints the value of every statement, or holds back all but the
last one, passes over blank lines and comments, and goes on after an error.  The prompt loop writes
a prompt before each line, passes over blank lines only, and stops at `exit` or `quit`.

A line reaches a loop as a text, or as `none` if its bytes are no text; that ends the loop with an
exit code of one.  Each loop is a step on one line, which an interactive program can take when the
line arrives, and a run over all lines.
-/
import Abacus.Session

namespace Abacus

/-! ## 1. Output -/

/-- What is written to the two output streams. -/
structure Output where
  /-- The values and prompts. -/
  out : Text
  /-- The messages about errors. -/
  err : Text
  deriving DecidableEq

namespace Output

/-- Nothing is written. -/
def nothing : Output := ⟨[], []⟩

/-- A text without a line feed behind it. -/
def plain (text : Text) : Output := ⟨text, []⟩

/-- A line of values. -/
def line (text : Text) : Output := ⟨text ++ ['\n'], []⟩

/-- A line about an error. -/
def complaint (message : String) : Output := ⟨[], message.toList ++ ['\n']⟩

instance : Append Output := ⟨fun a b => ⟨a.out ++ b.out, a.err ++ b.err⟩⟩

@[simp] theorem out_append (a b : Output) : (a ++ b).out = a.out ++ b.out := rfl

@[simp] theorem err_append (a b : Output) : (a ++ b).err = a.err ++ b.err := rfl

end Output

/-- What a whole run writes, and its exit code. -/
structure Outcome where
  /-- What is written. -/
  output : Output
  /-- The exit code. -/
  exitCode : Nat
  deriving DecidableEq

/-- The outcome with something written before it. -/
def Outcome.after (first : Output) (rest : Outcome) : Outcome :=
  ⟨first ++ rest.output, rest.exitCode⟩

/-- The outcome of a line that is no text. -/
def Outcome.unreadable : Outcome := ⟨.complaint "stream did not contain valid UTF-8", 1⟩

/-- What a loop over lines remembers. -/
structure Loop where
  /-- The names bound so far. -/
  env : Environment
  /-- The number of the next line. -/
  number : Nat
  /-- The value that is held back. -/
  held : Option Value
  deriving DecidableEq

namespace Loop

/-- Before the first line. -/
def start (env : Environment) : Loop := ⟨env, 1, none⟩

/-- Behind a line that changed nothing. -/
def skipLine (s : Loop) : Loop := { s with number := s.number + 1 }

/-! ## 2. The batch loop -/

/-- One line.  `hold` holds values back instead of printing them. -/
def batchStep (hold : Bool) (s : Loop) (line : Text) : Loop × Output :=
  if Environment.isSkipped line then (s.skipLine, .nothing)
  else
    match s.env.executeLine line s.number with
    | (env, .error error) => (⟨env, s.number + 1, s.held⟩, .complaint error.message)
    | (env, .ok v) =>
      if hold then (⟨env, s.number + 1, some v⟩, .nothing)
      else (⟨env, s.number + 1, s.held⟩, .line v.render)

/-- What is written at the end: the value that was held back. -/
def release (s : Loop) : Output :=
  match s.held with
  | some v => .line v.render
  | none => .nothing

/-- All lines. -/
def runBatch (hold : Bool) (s : Loop) : List (Option Text) → Outcome
  | [] => ⟨s.release, 0⟩
  | none :: _ => .unreadable
  | some line :: lines =>
    (runBatch hold (s.batchStep hold line).1 lines).after (s.batchStep hold line).2

/-! ## 3. The prompt loop -/

/-- What is written before each line is read. -/
def prompt : Output := .plain ['>', ' ']

/-- The words that end the loop. -/
def endsPrompt (word : Text) : Bool := word == "exit".toList || word == "quit".toList

/-- One line behind the prompt; nothing if it ends the loop. -/
def promptStep (s : Loop) (line : Text) : Option (Loop × Output) :=
  let statement := Text.trimEndWhile (fun c => c == '\n' || c == '\r') line
  let word := Text.trim statement
  if endsPrompt word then none
  else if word.isEmpty then some (s.skipLine, .nothing)
  else
    match s.env.executeLine statement s.number with
    | (env, .error error) => some (⟨env, s.number + 1, s.held⟩, .complaint error.message)
    | (env, .ok v) => some (⟨env, s.number + 1, s.held⟩, .line v.render)

/-- All lines, each with its line feed. -/
def runPrompt (s : Loop) : List (Option Text) → Outcome
  | [] => .after prompt ⟨.line [], 0⟩
  | none :: _ => .after prompt .unreadable
  | some line :: lines =>
    match s.promptStep line with
    | none => ⟨prompt, 0⟩
    | some (next, output) => .after (prompt ++ output) (runPrompt next lines)

end Loop
end Abacus
