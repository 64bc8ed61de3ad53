/-
# The program

Reading files and streams, and writing what the loops over lines answer.  The prompt loop is taken
one step at a time, so that an answer is seen before the next line is typed.
-/
import Abacus.CommandLine

namespace Abacus

/-- The text of a list of characters is written to a stream at once. -/
def writeText (stream : IO.FS.Stream) (text : Text) : IO Unit := do
  stream.putStr (String.ofList text)
  stream.flush

/-- Output is written to the two streams. -/
def writeOutput (output : Output) : IO Unit := do
  writeText (← IO.getStdout) output.out
  writeText (← IO.getStderr) output.err

/-- An outcome is written, and its exit code is the answer. -/
def writeOutcome (outcome : Outcome) : IO UInt32 := do
  writeOutput outcome.output
  return UInt32.ofNat outcome.exitCode

/-- The bytes of the next line with its line feed, after those already read. -/
partial def readLineBytes (stream : IO.FS.Stream) (bytes : ByteArray) : IO ByteArray := do
  let next ← stream.read 1
  if next.isEmpty then return bytes
  let bytes := bytes ++ next
  if next.toList == [10] then return bytes else readLineBytes stream bytes

/-- The bytes of a stream up to its end, after those already read. -/
partial def readAllBytes (stream : IO.FS.Stream) (bytes : ByteArray) : IO ByteArray := do
  let next ← stream.read 4096
  if next.isEmpty then return bytes else readAllBytes stream (bytes ++ next)

/-- The prompt loop from some point on. -/
partial def promptLoop (stream : IO.FS.Stream) (s : Loop) : IO UInt32 := do
  writeOutput Loop.prompt
  let bytes ← readLineBytes stream .empty
  if bytes.isEmpty then writeOutcome ⟨.line [], 0⟩
  else
    match Text.ofBytes? bytes.toList with
    | none => writeOutcome .unreadable
    | some line =>
      match s.promptStep line with
      | none => return 0
      | some (next, output) => do
        writeOutput output
        promptLoop stream next

/-- The bytes of a file, if it can be read. -/
def fileBytes? (path : String) : IO (Option (List UInt8)) := do
  try
    let bytes ← IO.FS.readBinFile path
    return some bytes.toList
  catch _ => return none

/-- The options are carried out. -/
def runOptions (options : Options) : IO UInt32 := do
  match options.file with
  | some path => writeOutcome (options.runFile path (← fileBytes? path))
  | none =>
    let stream ← IO.getStdin
    if options.pipe then
      let bytes ← readAllBytes stream .empty
      writeOutcome (options.runStream bytes.toList)
    else promptLoop stream (Loop.start options.environment)

end Abacus

/-- The program. -/
def main (arguments : List String) : IO UInt32 :=
  match Abacus.Command.ofArguments? arguments with
  | none => Abacus.writeOutcome .usage
  | some .version => Abacus.writeOutcome .version
  | some (.run options) => Abacus.runOptions options
