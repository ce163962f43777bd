/-
  A session beside the log.

  What a machine notes goes to the log at debug level, and the log decides at that time whether it
  is written. A machine notes its steps if the log was at debug level when the machine was made.
  Between calls the log may be changed.
-/
import Fractran.Machine.Session

namespace Fractran

/-- A session, and the log that its machine writes to. -/
structure Logged where
  session : Session
  log : Log

namespace Logged

/-- A session for a program, with a machine that is made while the log is as given. -/
def make (p : Program) (bound : Int) (log : Log) : Except Error Logged := do
  let m ← Machine.make p bound log.level
  return ⟨.ofMachine m, log⟩

/-- What can happen to a session and its log. -/
inductive Action where
  | call (c : Session.Call)
  | setLevel (level : Level)
  | setSilent (silent : Bool)

/-- The answer to a call, what was written to the log, and what is left. -/
structure Result where
  answer : Option (Except Error Session.Answer)
  entries : List Log.Entry
  after : Logged

/-- Does one thing. -/
def act (s : Logged) : Action → Result
  | .call c =>
    let reply := s.session.call c
    ⟨some reply.answer, s.log.writeAll .debug reply.notes, ⟨reply.session, s.log⟩⟩
  | .setLevel level => ⟨none, [], { s with log := { s.log with level := level } }⟩
  | .setSilent silent => ⟨none, [], { s with log := { s.log with silent := silent } }⟩

end Logged

end Fractran
