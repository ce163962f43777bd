/-
  The program that a call runs, on any device.

  A device is what a call needs of its surroundings: it reads sources, prints lines and writes
  diagnostics, each in some monad. Every line is printed as soon as it is made. A failure ends the
  call wherever it comes from, and is reported in one place.
-/
import Fractran.CommandLine.Job

namespace Fractran.CommandLine

/-- What a call can ask for. -/
structure Device (m : Type → Type) where
  /-- Whether standard input is a terminal. -/
  terminal : m Bool
  /-- Reads standard input. -/
  input : m Source.Stream
  /-- Reads a plain file, if it can be opened. -/
  plain : String → m (Option Source.Stream)
  /-- Decompresses a file, if it can be opened. -/
  unpack : String → m (Option (Except String String))
  /-- Prints a line. -/
  print : String → m Unit
  /-- Writes a diagnostic. -/
  complain : Diagnostic → m Unit

namespace Device

variable {m : Type → Type} [Monad m]

/-- Writes log entries. -/
@[specialize] def log (d : Device m) (entries : List Log.Entry) : m Unit :=
  entries.forM fun e => d.complain (.entry e)

/-- Reports a failure and gives the exit status. -/
@[specialize] def fail (d : Device m) (log : Log) (e : Error) : m Nat := do
  d.log (log.write .error e.message)
  return 1

/-- Opens what a program is read from. -/
@[specialize] def openSource (d : Device m) : Origin → ExceptT Error m Source.Stream
  | .standardInput => liftM d.input
  | .file path => do
    if isCompressedName path then
      liftExcept (Files.unpackedSource path (← d.unpack path))
    else
      liftExcept (Files.plainSource path (← d.plain path))

/-- Steps until the run is over. The bound allows `limit` more values. -/
@[specialize] def drive (d : Device m) (j : Job) : Nat → Run → m (Status × Run)
  | 0, r => return (.boundReached, r)
  | limit + 1, r => do
    let t := j.machine.step r
    d.log (j.log.writeAll .debug t.notes)
    match t.outcome with
    | .produced v =>
      d.print (j.machine.line j.mode t.run v)
      d.drive j limit t.run
    | .ended status => return (status, t.run)

/-- Performs a job to the end. -/
@[specialize] def perform (d : Device m) (j : Job) : m Unit := do
  let (status, r) ← d.drive j j.machine.bound j.start
  d.log (j.log.write .debug (j.closing status r))

/-- Reads the seed and then the program. -/
@[specialize] def load (d : Device m) (o : Options) (origin : Origin) (seed : String) :
    ExceptT Error m (Integer × Program) := do
  d.log (opening o)
  let n ← liftExcept (Integer.read seed)
  let source ← d.openSource origin
  d.log (unpackedEntries o origin source)
  let p ← liftExcept source.parse
  return (n, p)

/-- Runs a program from a seed. -/
@[specialize] def runProgram (d : Device m) (o : Options) (origin : Origin) (seed : String) :
    ExceptT Error m Unit := do
  let (n, p) ← d.load o origin seed
  d.log (loadedEntries o p)
  let job ← liftExcept (Job.make o n p)
  d.perform job

/-- Carries out the arguments and gives the exit status. -/
@[specialize] def execute (d : Device m) (arguments : List String) : m Nat := do
  match ({} : Options).parse arguments with
  | (o, .error e) => d.fail { level := o.level } e
  | (o, .ok positional) =>
    let terminal ← d.terminal
    match Command.select (!terminal) positional with
    | .help =>
      d.log (opening o)
      helpLines.forM d.print
      return 0
    | .usage line =>
      d.complain (.usage line)
      return 1
    | .run origin seed =>
      match ← (d.runProgram o origin seed).run with
      | .ok () => return 0
      | .error e => d.fail (commandLog o) e

end Device

end Fractran.CommandLine
