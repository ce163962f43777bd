/-
  Sessions: a machine under a sequence of calls.

  Before a seed is set there is no run to step. A call that fails changes nothing.
-/
import Fractran.Machine.Transcript

namespace Fractran

/-- A machine and its current run, if a seed was set. -/
structure Session where
  machine : Machine
  run : Option Run := none

namespace Session

/-- What a session can be asked to do. -/
inductive Call where
  /-- Starts over from a seed. -/
  | reset (seed : Integer)
  /-- Takes one step. -/
  | step
  /-- Starts over and steps until the run is over. -/
  | run (mode : Mode) (seed : Integer)

/-- What a call gives back. -/
inductive Answer where
  /-- A seed was set. -/
  | ready
  /-- A step was taken. -/
  | stepped (outcome : Outcome)
  /-- A run is over; these lines were printed. -/
  | finished (status : Status) (lines : List String)
  deriving DecidableEq

/-- The answer, the session after the call and what the machine noted. -/
structure Reply where
  answer : Except Error Answer
  session : Session
  notes : List String := []

/-- The current value; zero before a seed is set. -/
def value (s : Session) : Fraction := s.run.elim .zero (·.value)

/-- The number of steps taken. -/
def steps (s : Session) : Nat := s.run.elim 0 (·.steps)

/-- The index of the fraction applied last. -/
def last (s : Session) : Option Nat := s.run.bind (·.last)

/-- Whether the run found no fraction to apply. -/
def halted (s : Session) : Bool := s.run.elim false (·.halted)

/-- Does what is asked. -/
def call (s : Session) : Call → Reply
  | .reset seed =>
    match Machine.start seed with
    | .ok r => ⟨.ok .ready, { s with run := some r }, []⟩
    | .error e => ⟨.error e, s, []⟩
  | .step =>
    match s.run with
    | some r =>
      let t := s.machine.step r
      ⟨.ok (.stepped t.outcome), { s with run := some t.run }, t.notes⟩
    | none => ⟨.error .noSeed, s, []⟩
  | .run mode seed =>
    match s.machine.runFrom mode seed with
    | .ok (status, t) =>
      ⟨.ok (.finished status t.lines.toList), { s with run := some t.run }, t.notes.toList⟩
    | .error e => ⟨.error e, s, []⟩

/-- A machine that has not been given a seed. -/
def ofMachine (m : Machine) : Session := { machine := m }

end Session

end Fractran
