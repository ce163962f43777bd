/-
  Programs: lists of fractions, and how they are written.

  One application of a program to a value multiplies it by the first fraction that gives an
  integer.
-/
import Fractran.Fraction

namespace Fractran

/-- The fractions of a program, in order. -/
structure Program where
  fractions : List Fraction
  deriving DecidableEq

namespace Program

/-- The number of fractions. -/
def size (p : Program) : Nat := p.fractions.length

/-- Whether the program has no fractions. -/
def isEmpty (p : Program) : Bool := p.fractions.isEmpty

/-- A fraction of a program that was applied: which one, where it stands, and the product. -/
structure Application where
  fraction : Fraction
  index : Nat
  product : Fraction

/-- The first fraction whose product with the value is an integer. -/
def next? (p : Program) (value : Fraction) : Option Application :=
  p.fractions.zipIdx.findSome? fun (f, i) =>
    let product := value * f
    if product.isInt then some ⟨f, i, product⟩ else none

/-- The fractions with commas between them. -/
def text (p : Program) : List Char := List.intercalate [','] (p.fractions.map Fraction.text)

/-- The program as source text. -/
def toString (p : Program) : String := .ofList p.text

instance : ToString Program := ⟨toString⟩

/-- A fraction as an entry of a trace, in brackets if it was applied. -/
def entry (f : Fraction) (applied : Bool) : String :=
  if applied then "[" ++ f.toString ++ "]" else f.toString

/-- All fractions as entries of a trace, each behind a tab, the applied one in brackets. -/
def entries (p : Program) (applied : Option Nat) : String :=
  String.join (p.fractions.zipIdx.map fun (f, i) => "\t" ++ entry f (applied == some i))

end Program

end Fractran
