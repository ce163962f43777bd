/-
  The options of the command line.

  Arguments come in groups: `-d`, `-c` with a number of steps, `-l` with a level, and positional
  arguments. A group takes effect as soon as it is complete, so what stands before a faulty
  argument has been done when the fault is found.
-/
import Fractran.Machine.Transcript

namespace Fractran

/-- What has been chosen. -/
structure Options where
  /-- The most steps to take. -/
  stepLimit : Option Nat := none
  /-- Whether a trace is printed. -/
  trace : Bool := false
  /-- The level of the log. -/
  level : Level := .info
  deriving DecidableEq

namespace Options

/-- What an argument is. -/
inductive Kind where
  | positional
  | trace
  | stepLimit
  | level
  | unknown
  deriving DecidableEq

/-- An option starts with `-` and goes on with something other than a digit. -/
def Kind.of (argument : String) : Kind :=
  match argument.toList with
  | '-' :: c :: rest =>
    if c.isDigit then .positional
    else match c :: rest with
      | ['d'] => .trace
      | ['c'] => .stepLimit
      | ['l'] => .level
      | _ => .unknown
  | _ => .positional

/-- Space, tab, line feed, vertical tab, form feed and carriage return. -/
def isBlank (c : Char) : Bool := c == ' ' || (9 ≤ c.toNat && c.toNat ≤ 13)

/-- A text without a plus sign in front. -/
def dropPlus : List Char → List Char
  | '+' :: rest => rest
  | text => text

/-- A number of steps: blanks, an optional sign and digits, from one to the largest machine
    integer. No text behind a minus sign is such a number. -/
def stepLimit? (argument : String) : Option Nat :=
  let digits := dropPlus (argument.toList.dropWhile isBlank)
  if digits ≠ [] ∧ digits.all Char.isDigit then
    let n := Nat.ofDigitChars 10 digits 0
    if 1 ≤ n ∧ n ≤ Machine.unbounded then some n else none
  else none

/-- The options after the arguments, and the positional arguments or the fault. -/
def parse (o : Options) : List String → Options × Except Error (List String)
  | [] => (o, .ok [])
  | argument :: rest =>
    match Kind.of argument with
    | .positional =>
      let (o', positional) := o.parse rest
      (o', positional.map (argument :: ·))
    | .trace => { o with trace := true }.parse rest
    | .stepLimit =>
      match rest with
      | [] => (o, .error .missingArgument)
      | value :: rest =>
        match stepLimit? value with
        | some n => { o with stepLimit := some n }.parse rest
        | none => (o, .error (.invalidStepLimit value))
    | .level =>
      match rest with
      | [] => (o, .error .missingArgument)
      | value :: rest =>
        match Level.ofName? value with
        | some level => { o with level := level }.parse rest
        | none => (o, .error (.unknownLevel value))
    | .unknown => (o, .error (.unknownOption argument))

/-- The bound of a machine that obeys the options. -/
def bound (o : Options) : Nat := o.stepLimit.getD Machine.unbounded

end Options

end Fractran
