/-
  Fractions in lowest terms.

  The denominator is positive and zero is `0/1`, so two fractions are equal exactly when they
  are the same rational. A product cancels crosswise first and needs no reduction afterwards.
-/
import Fractran.Integer

namespace Fractran

/-- A numerator over a denominator. -/
structure Fraction where
  num : Integer
  den : Integer
  deriving DecidableEq

namespace Fraction

/-- The rational that a fraction denotes. -/
def toRat (f : Fraction) : Rat := f.num.toInt / f.den.toInt

/-- In lowest terms over a positive denominator. -/
def Reduced (f : Fraction) : Prop :=
  f.num.Canonical ∧ f.den.Canonical ∧ 0 < f.den.toInt ∧
    Nat.Coprime f.num.toInt.natAbs f.den.toInt.natAbs

/-- An integer as a fraction. -/
def ofInteger (n : Integer) : Fraction := ⟨n, .one⟩

/-- Zero, written `0/1`. -/
def zero : Fraction := ofInteger .zero

instance : Inhabited Fraction := ⟨zero⟩

/-- Two integers divided by their greatest common divisor. -/
def cancel (x y : Integer) : Integer × Integer :=
  let g := x.gcd y
  if g.isOne then (x, y) else (x.tdiv g, y.tdiv g)

/-- Lowest terms of a quotient with a denominator that is not zero. -/
def reduce (n d : Integer) : Fraction :=
  let n' := if d.negative then -n else n
  if n'.isZero then ofInteger n'
  else
    let (p, q) := cancel n' d.abs
    ⟨p, q⟩

/-- The quotient of two integers in lowest terms, unless the second is zero. -/
def make? (n d : Integer) : Option Fraction := if d.isZero then none else some (reduce n d)

/-- The product. Each numerator is cancelled against the other denominator before multiplying. -/
def mul (f g : Fraction) : Fraction :=
  let (a, d) := cancel f.num g.den
  let (b, c) := cancel g.num f.den
  let n := a * b
  ⟨n, if n.isZero then .one else c * d⟩

instance : Mul Fraction := ⟨mul⟩

/-- Whether the fraction is an integer. -/
def isInt (f : Fraction) : Bool := f.den.isOne

/-- The sign: `-1`, `0` or `1`. -/
def sign (f : Fraction) : Int := f.num.sign

/-- Whether the fraction is greater than zero. -/
def isPositive (f : Fraction) : Bool := f.num.isPositive

/-- Numerator and denominator as numerals with a slash between. -/
def text (f : Fraction) : List Char := f.num.text ++ '/' :: f.den.text

/-- The fraction as text; the denominator is always written. -/
def toString (f : Fraction) : String := .ofList f.text

instance : ToString Fraction := ⟨toString⟩

end Fraction

end Fractran
