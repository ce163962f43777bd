/-
  The log: which messages are written, and how an entry looks.

  A message below the log's level is dropped. A silent log drops all but errors.
-/
import Fractran.Error

namespace Fractran

/-- How serious a message is. -/
inductive Level where
  | debug
  | info
  | warn
  | error
  deriving DecidableEq

namespace Level

/-- The levels from the least to the most serious. -/
def rank : Level → Nat
  | debug => 0
  | info => 1
  | warn => 2
  | error => 3

/-- The name by which a level is chosen. -/
def name : Level → String
  | debug => "debug"
  | info => "info"
  | warn => "warn"
  | error => "error"

/-- The level with a name. -/
def ofName? (name : String) : Option Level := [debug, info, warn, error].find? (·.name == name)

/-- The level as an entry shows it, five characters wide. -/
def label : Level → String
  | debug => "DEBUG"
  | info => "INFO "
  | warn => "WARN "
  | error => "ERROR"

end Level

/-- What a log lets through. -/
structure Log where
  level : Level := .info
  silent : Bool := false
  deriving DecidableEq

namespace Log

/-- A written message. -/
structure Entry where
  level : Level
  message : String
  deriving DecidableEq

/-- An entry as a line, behind the time at which it was written. -/
def Entry.render (e : Entry) (time : String) : String :=
  time ++ "|" ++ e.level.label ++ "|" ++ e.message ++ "\n"

/-- Whether messages of a level are written. -/
def accepts (log : Log) (level : Level) : Bool :=
  log.level.rank ≤ level.rank && (!log.silent || Level.error.rank ≤ level.rank)

/-- What the log writes for a message: one entry or nothing. -/
def write (log : Log) (level : Level) (message : String) : List Entry :=
  if log.accepts level then [⟨level, message⟩] else []

/-- What the log writes for several messages of one level. -/
def writeAll (log : Log) (level : Level) (messages : List String) : List Entry :=
  messages.flatMap (log.write level)

/-- Reports a failure: the entry, and the failure to raise. -/
def report (log : Log) (message : String) : List Entry × Error :=
  (log.write .error message, .reported message)

end Log

end Fractran
