/-
  Integers of any size: a sign and a magnitude.

  `toInt` is what an integer denotes. An integer is canonical when its magnitude is and zero is
  not negative; then equal integers have equal representations. Division rounds toward zero and
  the remainder takes the sign of the dividend.
-/
import Fractran.Magnitude.Numeral

namespace Fractran

/-- A sign and a magnitude. -/
structure Integer where
  negative : Bool
  magnitude : Magnitude
  deriving DecidableEq

namespace Integer

/-- The number that the representation denotes. -/
def toInt (a : Integer) : Int := if a.negative then -a.magnitude.toNat else a.magnitude.toNat

/-- The magnitude is canonical and zero is not negative. -/
def Canonical (a : Integer) : Prop :=
  a.magnitude.Canonical ∧ (a.magnitude = [] → a.negative = false)

instance (a : Integer) : Decidable (Canonical a) := inferInstanceAs (Decidable (_ ∧ _))

/-- A magnitude with a sign; zero takes none. -/
def ofMagnitude (negative : Bool) (m : Magnitude) : Integer := ⟨negative && !m.isZero, m⟩

/-- Zero. -/
def zero : Integer := ⟨false, []⟩

/-- One. -/
def one : Integer := ⟨false, [1]⟩

instance : Inhabited Integer := ⟨zero⟩

/-! ## Machine integers -/

/-- The integer with the value of a machine integer. -/
def ofInt64 (v : Int64) : Integer := ofMagnitude (v < 0) (.ofWord v.toInt.natAbs.toUInt64)

/-- The machine integer with this value, for magnitudes below `2 ^ 63`. -/
def toInt64? (a : Integer) : Option Int64 :=
  match a.magnitude with
  | [] => some 0
  | [w] =>
    if w < 0x8000000000000000 then some (if a.negative then -w.toInt64 else w.toInt64) else none
  | _ => none

/-! ## Tests and comparison -/

/-- Whether the integer is zero. -/
def isZero (a : Integer) : Bool := a.magnitude.isZero

/-- Whether the integer is one. -/
def isOne (a : Integer) : Bool := a == one

/-- Whether the integer is odd. -/
def isOdd (a : Integer) : Bool :=
  match a.magnitude with
  | [] => false
  | w :: _ => w &&& 1 == 1

/-- The sign: `-1`, `0` or `1`. -/
def sign (a : Integer) : Int := if a.isZero then 0 else if a.negative then -1 else 1

/-- Whether the integer is greater than zero. -/
def isPositive (a : Integer) : Bool := a.sign == 1

/-- Compares by value. -/
def compare (a b : Integer) : Ordering :=
  match a.negative, b.negative with
  | false, false => a.magnitude.compare b.magnitude
  | false, true => .gt
  | true, false => .lt
  | true, true => b.magnitude.compare a.magnitude

instance : Ord Integer := ⟨compare⟩

instance : LT Integer := ltOfOrd

instance : LE Integer := leOfOrd

/-! ## Arithmetic -/

/-- The integer with the other sign. -/
def neg (a : Integer) : Integer := ofMagnitude (!a.negative) a.magnitude

/-- The absolute value. -/
def abs (a : Integer) : Integer := ⟨false, a.magnitude⟩

/-- The sum: magnitudes of one sign are added, of two signs the smaller is taken from the larger. -/
def add (a b : Integer) : Integer :=
  if a.negative = b.negative then ofMagnitude a.negative (a.magnitude.add b.magnitude)
  else if a.magnitude.below b.magnitude then ofMagnitude b.negative (b.magnitude.sub a.magnitude)
  else ofMagnitude a.negative (a.magnitude.sub b.magnitude)

/-- The difference. -/
def sub (a b : Integer) : Integer := a.add b.neg

/-- The product. -/
def mul (a b : Integer) : Integer :=
  ofMagnitude (a.negative != b.negative) (a.magnitude.mul b.magnitude)

/-- The quotient rounded toward zero. -/
def tdiv (a b : Integer) : Integer :=
  ofMagnitude (a.negative != b.negative) (a.magnitude.div b.magnitude)

/-- The remainder with the sign of the dividend. -/
def tmod (a b : Integer) : Integer := ofMagnitude a.negative (a.magnitude.mod b.magnitude)

/-- The greatest common divisor, never negative. -/
def gcd (a b : Integer) : Integer := ⟨false, a.magnitude.gcd b.magnitude⟩

instance : Neg Integer := ⟨neg⟩

instance : Add Integer := ⟨add⟩

instance : Sub Integer := ⟨sub⟩

instance : Mul Integer := ⟨mul⟩

/-- The quotient, unless the divisor is zero. -/
def div? (a b : Integer) : Option Integer := if b.isZero then none else some (a.tdiv b)

/-- The remainder, unless the divisor is zero. -/
def mod? (a b : Integer) : Option Integer := if b.isZero then none else some (a.tmod b)

/-! ## Numerals -/

/-- A text without the spaces around it. -/
def stripSpaces (text : List Char) : List Char :=
  ((text.dropWhile (· == ' ')).reverse.dropWhile (· == ' ')).reverse

/-- The magnitude that a text of one or more digits writes. -/
def magnitudeOfText? (text : List Char) : Option Magnitude :=
  if text ≠ [] ∧ text.all Char.isDigit then some (.ofDigits text) else none

/-- The integer that a text writes: digits, possibly behind one `-`, with spaces around. -/
def ofText? (text : String) : Option Integer :=
  match stripSpaces text.toList with
  | '-' :: digits => (magnitudeOfText? digits).map (ofMagnitude true)
  | digits => (magnitudeOfText? digits).map (ofMagnitude false)

/-- The decimal digits, behind `-` if the integer is negative. -/
def text (a : Integer) : List Char :=
  if a.negative then '-' :: a.magnitude.digits else a.magnitude.digits

/-- The decimal numeral. -/
def toString (a : Integer) : String := .ofList a.text

instance : ToString Integer := ⟨toString⟩

end Integer

end Fractran
