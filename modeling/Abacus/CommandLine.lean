/-
# The command line

    --file PATH, -f PATH     run the lines of a file
    --strict, -s             refuse `=` on names that are bound
    --pipe-mode, -p          print the last value only; without a file, read standard input
    --version, -V            print the version

Short options may be joined, and a path may stand right behind its option, with or without an equals
sign.  Two dashes end the options, and nothing may follow them.  Without a file and without pipe
mode, statements are read behind a prompt.

Everything a run writes is a function of the arguments, the files and the bytes of standard input.
-/
import Abacus.Console

namespace Abacus

/-! ## 1. Options -/

/-- What the arguments ask for. -/
structure Options where
  /-- The file to run. -/
  file : Option String
  /-- Start with a strict environment. -/
  strict : Bool
  /-- Print the last value only. -/
  pipe : Bool
  deriving DecidableEq

/-- A command. -/
inductive Command where
  /-- Print the version. -/
  | version
  /-- Run statements. -/
  | run (options : Options)
  deriving DecidableEq

namespace Options

/-- No options. -/
def initial : Options := ⟨none, false, false⟩

/-- The options with a file; there may be only one, and its path is not empty. -/
def withFile? (options : Options) (path : String) : Option Options :=
  if options.file.isNone && path != "" then some { options with file := some path } else none

/-- The options with strictness, which is asked for once. -/
def withStrict? (options : Options) : Option Options :=
  if options.strict then none else some { options with strict := true }

/-- The options with pipe mode, which is asked for once. -/
def withPipe? (options : Options) : Option Options :=
  if options.pipe then none else some { options with pipe := true }

end Options

/-! ## 2. Arguments -/

/-- What one argument amounts to. -/
inductive Reading where
  /-- It leads to these options. -/
  | settled (options : Options)
  /-- The next argument is the path of a file. -/
  | wantsPath (options : Options)
  /-- The version is asked for. -/
  | version
  /-- It is no argument of this program. -/
  | refused

namespace Reading

/-- The options, if there are any. -/
def ofOptions : Option Options → Reading
  | some options => settled options
  | none => refused

/-- The short options that are joined in one argument. -/
def ofShort (options : Options) : Text → Reading
  | [] => settled options
  | 's' :: rest =>
    match options.withStrict? with
    | some options => ofShort options rest
    | none => refused
  | 'p' :: rest =>
    match options.withPipe? with
    | some options => ofShort options rest
    | none => refused
  | 'V' :: _ => version
  | ['f'] => wantsPath options
  | 'f' :: '=' :: rest => ofOptions (options.withFile? (String.ofList rest))
  | 'f' :: rest => ofOptions (options.withFile? (String.ofList rest))
  | _ => refused

/-- One argument. -/
def ofArgument (options : Options) (argument : String) : Reading :=
  if argument = "--file" then wantsPath options
  else if argument = "--strict" then ofOptions options.withStrict?
  else if argument = "--pipe-mode" then ofOptions options.withPipe?
  else if argument = "--version" then version
  else
    match "--file=".toList.isPrefixOf? argument.toList, argument.toList with
    | some path, _ => ofOptions (options.withFile? (String.ofList path))
    | none, '-' :: '-' :: _ => refused
    | none, '-' :: letter :: letters => ofShort options (letter :: letters)
    | none, _ => refused

end Reading

/-- An argument that can be the path of a file: options cannot. -/
def isPath (argument : String) : Bool :=
  match argument.toList with
  | '-' :: _ :: _ => false
  | _ => true

namespace Command

/-- The command of the arguments behind given options. -/
def ofArgumentsFrom (options : Options) : List String → Option Command
  | [] => some (.run options)
  | ["--"] => some (.run options)
  | argument :: arguments =>
    match Reading.ofArgument options argument, arguments with
    | .settled options, arguments => ofArgumentsFrom options arguments
    | .version, _ => some .version
    | .refused, _ => none
    | .wantsPath _, [] => none
    | .wantsPath options, path :: arguments =>
      if isPath path then
        match options.withFile? path with
        | some options => ofArgumentsFrom options arguments
        | none => none
      else none

/-- The command of the arguments, if they make sense. -/
def ofArguments? (arguments : List String) : Option Command := ofArgumentsFrom .initial arguments

end Command

/-! ## 3. Outcomes -/

/-- The outcome of arguments that make no sense. -/
def Outcome.usage : Outcome :=
  ⟨.complaint "usage: calcula [--file PATH] [--strict] [--pipe-mode] [--version]", 2⟩

/-- The outcome of asking for the version. -/
def Outcome.version : Outcome := ⟨.line "calcula 0.1.0".toList, 0⟩

/-- The outcome of a file that cannot be read. -/
def Outcome.missingFile (path : String) : Outcome :=
  ⟨.complaint
    s!"Failed to read the input file '{path}'. Perhaps this file does not exist?", 1⟩

/-- The lines of a stream, each with its line feed; a line that is no text becomes `none`. -/
def streamLines (bytes : List UInt8) : List (Option Text) :=
  (Text.cutAfter 10 bytes).map Text.ofBytes?

namespace Options

/-- The environment to start with. -/
def environment (options : Options) : Environment := .fresh options.strict

/-- The outcome of running a file with the given bytes. -/
def runFile (options : Options) (path : String) (bytes : Option (List UInt8)) : Outcome :=
  match bytes.bind Text.ofBytes? with
  | some source =>
    (Loop.start options.environment).runBatch options.pipe ((Text.lines source).map some)
  | none => .missingFile path

/-- The outcome of reading a stream without a prompt. -/
def runStream (options : Options) (bytes : List UInt8) : Outcome :=
  (Loop.start options.environment).runBatch options.pipe
    ((streamLines bytes).map (fun line => line.map Text.stripLineEnd))

/-- The outcome of reading a stream behind a prompt. -/
def runPrompt (options : Options) (bytes : List UInt8) : Outcome :=
  (Loop.start options.environment).runPrompt (streamLines bytes)

/-- The outcome of a run.  `fileBytes` gives the bytes of the files that can be read. -/
def run (options : Options) (fileBytes : String → Option (List UInt8)) (input : List UInt8) :
    Outcome :=
  match options.file with
  | some path => options.runFile path (fileBytes path)
  | none => if options.pipe then options.runStream input else options.runPrompt input

end Options

/-- The outcome of the program. -/
def runProgram (arguments : List String) (fileBytes : String → Option (List UInt8))
    (input : List UInt8) : Outcome :=
  match Command.ofArguments? arguments with
  | none => .usage
  | some .version => .version
  | some (.run options) => options.run fileBytes input

end Abacus
