/-
  Whole runs: every step until the run is over, with what is printed on the way.

  A run prints one line for each value, either the value alone or a trace entry that shows which
  fraction made it. It ends because the bound allows one value less after every line.
-/
import Fractran.Machine.Basic

namespace Fractran

/-- What is printed for each value. -/
inductive Mode where
  /-- The value alone. -/
  | values
  /-- The value and all fractions, the applied one in brackets. -/
  | trace
  deriving DecidableEq

/-- A run with what was printed and noted so far. -/
structure Transcript where
  run : Run
  lines : Array String := #[]
  notes : Array String := #[]

namespace Machine

/-- The line that is printed for a value. -/
def line (m : Machine) (mode : Mode) (r : Run) (value : Integer) : String :=
  match mode with
  | .values => value.toString
  | .trace => value.toString ++ ":" ++ m.program.entries r.last

/-- Steps until the run is over. The bound allows `limit` more values. -/
def drive (m : Machine) (mode : Mode) : Nat → Transcript → Status × Transcript
  | 0, t => (.boundReached, t)
  | limit + 1, t =>
    match m.step t.run with
    | ⟨.produced v, r, notes⟩ =>
      m.drive mode limit ⟨r, t.lines.push (m.line mode r v), t.notes ++ notes⟩
    | ⟨.ended status, r, notes⟩ => (status, { t with run := r, notes := t.notes ++ notes })

/-- A run that has not begun, to its end. -/
def complete (m : Machine) (mode : Mode) (r : Run) : Status × Transcript :=
  m.drive mode m.bound { run := r }

/-- Runs from a seed to the end. -/
def runFrom (m : Machine) (mode : Mode) (seed : Integer) : Except Error (Status × Transcript) := do
  let r ← start seed
  return m.complete mode r

end Machine

/-- Lines as text, each with its line end. -/
def linesText (lines : List String) : String := String.join (lines.map (· ++ "\n"))

/-- What was printed, as text. -/
def Transcript.output (t : Transcript) : String := linesText t.lines.toList

end Fractran
