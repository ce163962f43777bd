/-
  The commands of the command line and their outcome.

  Options are taken first, then a command is chosen from the remaining arguments. A job is a machine
  with a seed, ready to run. Every failure ends in exit status one with one diagnostic and
  nothing printed.
-/
import Fractran.CommandLine.Options
import Fractran.CommandLine.Console

namespace Fractran.CommandLine

/-- The name and version that the program gives itself. -/
def version : String := "FRACTRAN developer version"

/-- The lines of the help text. -/
def helpLines : List String :=
  ["Welcome to " ++ version ++ ".",
    "",
    "Usage: fractran <options> <file> <n>",
    "       <source> | fractran <options> <n>",
    "",
    "Runs a FRACTRAN program starting with the positive integer n and prints",
    "every produced integer on a separate line.",
    "",
    "Targets:",
    "  <file>               Path to a FRACTRAN program, e.g. \"3/2,1/3\" (*.gz supported)",
    "  <n>                  Positive initial value",
    "",
    "Options:",
    "  -c <number>          Maximum number of steps (default: unbounded)",
    "  -d                   Print a trace of the applied fractions",
    "  -l <string>          Log level (values: debug,info,warn,error)"]

/-- Where a program is read from. -/
inductive Origin where
  | standardInput
  | file (path : String)
  deriving DecidableEq

/-- What the arguments ask for. -/
inductive Command where
  | help
  /-- Runs a program from a seed. -/
  | run (origin : Origin) (seed : String)
  /-- The arguments make no command; the line says how to call the program. -/
  | usage (line : String)
  deriving DecidableEq

/-- The command that positional arguments make. A named file wins over piped input. -/
def Command.select (piped : Bool) : List String → Command
  | "help" :: _ => .help
  | ["", seed] => .run .standardInput seed
  | [path, seed] => .run (.file path) seed
  | [seed] => if piped then .run .standardInput seed else .usage "Usage: fractran <file> <n>"
  | _ => .usage (if piped then "Usage: fractran <n>" else "Usage: fractran <file> <n>")

/-- A log that obeys the options; it is silent except at debug level. -/
def commandLog (o : Options) : Log := ⟨o.level, o.level != .debug⟩

/-- What is logged when a command starts. -/
def opening (o : Options) : List Log.Entry := (commandLog o).write .info ("Starting " ++ version)

/-- The seed and the program of a run, the seed read first. -/
def load (seed : String) (stream : Except Error Source.Stream) :
    Except Error (Integer × Program) := do
  let n ← Integer.read seed
  let source ← stream
  let p ← source.parse
  return (n, p)

/-- What is logged when a program has been read. -/
def loadedEntries (o : Options) (p : Program) : List Log.Entry :=
  (commandLog o).write .debug ("Parsed program with " ++ p.size.repr ++ " fractions")

/-- A machine with a run that has not begun. -/
structure Job where
  machine : Machine
  start : Run
  mode : Mode
  log : Log

namespace Job

/-- The job of running a program from a seed. -/
def make (o : Options) (seed : Integer) (p : Program) : Except Error Job := do
  let machine ← Machine.make p o.bound o.level
  let start ← Machine.start seed
  return ⟨machine, start, if o.trace then .trace else .values, commandLog o⟩

/-- Runs to the end. -/
def perform (j : Job) : Status × Transcript := j.machine.complete j.mode j.start

/-- What is noted when the run is over. -/
def closing (j : Job) (status : Status) (r : Run) : String :=
  match status with
  | .boundReached => "Reached maximum number of steps: " ++ j.machine.bound.repr
  | .halted => Machine.haltedNote r.steps

end Job

/-- What is written to standard error. -/
inductive Diagnostic where
  | entry (e : Log.Entry)
  | usage (line : String)
  deriving DecidableEq

/-- A diagnostic as a line; `time` stands in front of log entries. -/
def Diagnostic.render (time : String) : Diagnostic → String
  | entry e => e.render time
  | usage line => line ++ "\n"

/-- The outcome of a call: exit status, lines printed and diagnostics. -/
structure Response where
  exit : Nat
  output : List String := []
  diagnostics : List Diagnostic := []
  deriving DecidableEq

/-- The response to a failure, after what was logged before it. -/
def failure (log : Log) (before : List Log.Entry) (e : Error) : Response :=
  { exit := 1, diagnostics := (before ++ log.write .error e.message).map .entry }

/-- Opens what a program is read from. -/
def Origin.openIn (console : Console) : Origin → Except Error Source.Stream
  | standardInput => .ok { text := console.input, broken := console.brokenInput }
  | file path => console.files.openFile path

/-- What is logged when a source has been opened: how much a compressed file held. -/
def unpackedEntries (o : Options) (origin : Origin) (source : Source.Stream) : List Log.Entry :=
  match origin with
  | .standardInput => []
  | .file path =>
    if isCompressedName path then
      (commandLog o).write .debug
        ("Decompressed " ++ source.text.length.repr ++ " bytes from " ++ path)
    else []

/-- What is logged before the source is looked at. It is not opened if the seed is no numeral. -/
def readingEntries (console : Console) (o : Options) (origin : Origin) (seed : String) :
    List Log.Entry :=
  match Integer.read seed, origin.openIn console with
  | .ok _, .ok source => opening o ++ unpackedEntries o origin source
  | _, _ => opening o

/-- Runs a program from a seed. -/
def runProgram (console : Console) (o : Options) (origin : Origin) (seed : String) : Response :=
  let reading := readingEntries console o origin seed
  match load seed (origin.openIn console) with
  | .error e => failure (commandLog o) reading e
  | .ok (n, p) =>
    let before := reading ++ loadedEntries o p
    match Job.make o n p with
    | .error e => failure (commandLog o) before e
    | .ok job =>
      let (status, t) := job.perform
      { exit := 0
        output := t.lines.toList
        diagnostics := (before ++ job.log.writeAll .debug t.notes.toList
          ++ job.log.write .debug (job.closing status t.run)).map .entry }

/-- The command line program. -/
def respond (console : Console) (arguments : List String) : Response :=
  match ({} : Options).parse arguments with
  | (o, .error e) => failure { level := o.level } [] e
  | (o, .ok positional) =>
    match Command.select (!console.terminal) positional with
    | .help => { exit := 0, output := helpLines, diagnostics := (opening o).map .entry }
    | .usage line => { exit := 1, diagnostics := [.usage line] }
    | .run origin seed => runProgram console o origin seed

end Fractran.CommandLine
