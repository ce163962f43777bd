/-
  Reading programs from source text.

  A source is one or more fractions with commas between, a fraction two digit runs with a slash
  between, and no denominator is zero. The reader takes one character at a time and knows after
  each one whether the text so far can still become a source, so a fault is found at the first
  character that cannot be continued. Positions count characters from zero.
-/
import Fractran.Program
import Fractran.Source.Symbol

namespace Fractran.Source

/-- Why a text is no source. -/
inductive Fault where
  /-- There is nothing to read. -/
  | empty
  /-- A symbol that cannot stand where it does; `none` is the end of the text. -/
  | unexpected (position : Nat) (found : Option Char) (expected : Symbol)
  /-- The denominator that starts at the position is zero. -/
  | zeroDenominator (position : Nat)
  deriving DecidableEq

namespace Fault

/-- Where the fault is. -/
def position : Fault → Nat
  | empty => 0
  | unexpected p _ _ => p
  | zeroDenominator p => p

/-- What was found there. -/
def token : Fault → String
  | empty => Symbol.describe none
  | unexpected _ found _ => Symbol.describe found
  | zeroDenominator _ => Integer.zero.toString

/-- The fault in words. -/
def message : Fault → String
  | empty => "empty program"
  | unexpected p found expected =>
    "unexpected " ++ Symbol.describe found ++ " at position " ++ p.repr ++ ", expected "
      ++ expected.name
  | zeroDenominator p => "zero denominator at position " ++ p.repr

end Fault

/-- Where in a fraction the reader is. Digits are kept latest first. -/
inductive Phase where
  /-- Before the first digit of a numerator. -/
  | fraction
  /-- After a digit of the numerator. -/
  | numerator (digits : List Char)
  /-- After the slash. -/
  | slash (numerator : List Char)
  /-- After a digit of the denominator that starts at the position. -/
  | denominator (numerator : List Char) (start : Nat) (digits : List Char)
  deriving DecidableEq

/-- What the reader knows: the finished fractions, latest first, how many characters it has
    taken, and where it is. -/
structure Reader where
  fractions : List Fraction := []
  position : Nat := 0
  phase : Phase := .fraction
  deriving DecidableEq

namespace Reader

/-- The integer that digits write, latest first. -/
def integer (digits : List Char) : Integer := .ofMagnitude false (.ofDigits digits.reverse)

/-- The fraction that two digit runs write; `start` is where the denominator starts. -/
def close (numerator : List Char) (start : Nat) (digits : List Char) : Except Fault Fraction :=
  match Fraction.make? (integer numerator) (integer digits) with
  | some f => .ok f
  | none => .error (.zeroDenominator start)

/-- Moves past a character. -/
def advance (r : Reader) (phase : Phase) : Reader :=
  { r with position := r.position + 1, phase := phase }

/-- Takes the next character. -/
def take (r : Reader) (c : Char) : Except Fault Reader :=
  match r.phase, Symbol.ofChar c with
  | .fraction, .digit => .ok (r.advance (.numerator [c]))
  | .fraction, _ => .error (.unexpected r.position c .digit)
  | .numerator n, .digit => .ok (r.advance (.numerator (c :: n)))
  | .numerator n, .slash => .ok (r.advance (.slash n))
  | .numerator _, _ => .error (.unexpected r.position c .slash)
  | .slash n, .digit => .ok (r.advance (.denominator n r.position [c]))
  | .slash _, _ => .error (.unexpected r.position c .digit)
  | .denominator n start d, .digit => .ok (r.advance (.denominator n start (c :: d)))
  | .denominator n start d, .comma => do
    let f ← close n start d
    return { r with fractions := f :: r.fractions }.advance .fraction
  | .denominator n start d, _ => do
    let _ ← close n start d
    .error (.unexpected r.position c .finish)

/-- The program, if the text may end here. -/
def finish (r : Reader) : Except Fault Program :=
  match r.phase with
  | .fraction =>
    if r.fractions.isEmpty then .error .empty
    else .error (.unexpected r.position none .digit)
  | .numerator _ => .error (.unexpected r.position none .slash)
  | .slash _ => .error (.unexpected r.position none .digit)
  | .denominator n start d => do
    let f ← close n start d
    return ⟨(f :: r.fractions).reverse⟩

/-- Takes all characters of a text. -/
def takeAll (text : List Char) : Except Fault Reader := text.foldlM take {}

end Reader

/-- The program that a text writes. -/
def parse (text : List Char) : Except Fault Program := do
  let r ← Reader.takeAll text
  r.finish

end Fractran.Source
