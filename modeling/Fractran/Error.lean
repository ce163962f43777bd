/-
  What can go wrong, and how it is worded.

  A message shown to a reader ends before the first NUL character of its text: a text from
  outside can hold one, and it is quoted in the message as it came.
-/
import Fractran.Source.Reader

namespace Fractran

/-- The causes of failure. -/
inductive Error where
  /-- The text is no numeral. -/
  | malformedNumber (text : String)
  /-- A quotient or remainder by zero. -/
  | divisionByZero
  /-- The integer does not fit a machine integer. -/
  | overflow
  /-- A fraction over zero. -/
  | zeroDenominator (numerator : Integer)
  /-- The text is no program. -/
  | malformedSource (fault : Source.Fault)
  /-- Reading the source failed before its end. -/
  | unreadableSource
  /-- The file cannot be opened. -/
  | unopenedFile (path : String)
  /-- The name is not that of a compressed file. -/
  | uncompressedName (path : String)
  /-- A bound on the steps below one. -/
  | boundNotPositive (bound : Int)
  /-- A program with a fraction that is not positive. -/
  | fractionNotPositive (fraction : Fraction)
  /-- A run from a number below one. -/
  | seedNotPositive (seed : Integer)
  /-- A step before a seed was set. -/
  | noSeed
  /-- The argument of `-c` is no number of steps. -/
  | invalidStepLimit (argument : String)
  /-- The argument of `-l` is no level. -/
  | unknownLevel (argument : String)
  /-- No option has this name. -/
  | unknownOption (argument : String)
  /-- The last option lacks its argument. -/
  | missingArgument
  /-- A failure in the words of whoever reports it. -/
  | reported (message : String)
  deriving DecidableEq

namespace Error

/-- The cause in words. -/
def text : Error → String
  | malformedNumber t => "error reading number: '" ++ t ++ "'"
  | divisionByZero => "division by zero"
  | overflow => "Integer overflow"
  | zeroDenominator n => "zero denominator in fraction " ++ n.toString ++ "/0"
  | malformedSource fault => fault.message
  | unreadableSource => "Error reading program source"
  | unopenedFile path => "Error opening file: " ++ path
  | uncompressedName path => "Expected .gz extension: " ++ path
  | boundNotPositive bound => "bound must be positive: " ++ bound.repr
  | fractionNotPositive f => f.toString ++ " is a non-positive fraction"
  | seedNotPositive n => "n must be positive: " ++ n.toString
  | noSeed => "interpreter has no initial value"
  | invalidStepLimit argument => "Invalid value for option -c: " ++ argument
  | unknownLevel argument => "Unknown log level: " ++ argument
  | unknownOption argument => "Unknown option: " ++ argument
  | missingArgument => "Missing argument"
  | reported message => message

/-- A text up to its first NUL character. -/
def untilNul (text : String) : String := .ofList (text.toList.takeWhile (· ≠ Char.ofNat 0))

/-- The cause as it is shown. -/
def message (e : Error) : String := untilNul e.text

end Error

/-! ## Operations that name their cause of failure -/

/-- Reads a numeral. -/
def Integer.read (text : String) : Except Error Integer :=
  match Integer.ofText? text with
  | some a => .ok a
  | none => .error (.malformedNumber text)

/-- The quotient, rounded toward zero. -/
def Integer.div (a b : Integer) : Except Error Integer :=
  match a.div? b with
  | some q => .ok q
  | none => .error .divisionByZero

/-- The remainder, with the sign of the dividend. -/
def Integer.mod (a b : Integer) : Except Error Integer :=
  match a.mod? b with
  | some r => .ok r
  | none => .error .divisionByZero

/-- The machine integer with the same value. -/
def Integer.toInt64 (a : Integer) : Except Error Int64 :=
  match a.toInt64? with
  | some v => .ok v
  | none => .error .overflow

/-- The quotient of two integers in lowest terms. -/
def Fraction.make (n d : Integer) : Except Error Fraction :=
  match Fraction.make? n d with
  | some f => .ok f
  | none => .error (.zeroDenominator n)

/-- The program with one more fraction at its end. -/
def Program.push (p : Program) (n d : Integer) : Except Error Program := do
  let f ← Fraction.make n d
  return ⟨p.fractions ++ [f]⟩

/-- A computation with two steps gives a result only through both. -/
theorem bind_eq_ok_iff {ε α β : Type} {x : Except ε α} {f : α → Except ε β} {b : β} :
    x >>= f = .ok b ↔ ∃ a, x = .ok a ∧ f a = .ok b := by
  constructor
  · intro h
    cases x with
    | error e => cases h
    | ok a => exact ⟨a, rfl, h⟩
  · rintro ⟨a, rfl, h⟩
    exact h

/-- A computation with two steps fails in one of them. -/
theorem bind_eq_error_iff {ε α β : Type} {x : Except ε α} {f : α → Except ε β} {e : ε} :
    x >>= f = .error e ↔ x = .error e ∨ ∃ a, x = .ok a ∧ f a = .error e := by
  cases x with
  | error e' =>
    constructor
    · intro h
      cases h
      exact .inl rfl
    · rintro (h | ⟨a, h, -⟩) <;> cases h
      rfl
  | ok a =>
    constructor
    · intro h
      exact .inr ⟨a, rfl, h⟩
    · rintro (h | ⟨b, h, hb⟩) <;> cases h
      exact hb

end Fractran
