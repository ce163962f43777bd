/-
  Decimal numerals of magnitudes.

  Reading and printing go through groups of nine digits, the most that a multiplier or divisor
  below `2 ^ 32` can take at once. A numeral has no leading zero, apart from the numeral of zero.
-/
import Fractran.Magnitude.Gcd

namespace Fractran.Magnitude

/-! ## Reading -/

/-- The value of a decimal digit. -/
def digitValue (c : Char) : Word := (c.toNat - '0'.toNat).toUInt64

/-- A numeral read in part: the value of the full groups, the value of the digits after them and
    ten to the number of those digits. -/
structure Reading where
  value : Magnitude := []
  group : Word := 0
  scale : Word := 1

/-- Appends the open group to the value. -/
def Reading.close (r : Reading) : Magnitude := addWord (mulHalf r.value r.scale) r.group

/-- Takes one more digit; the ninth digit of a group closes it. -/
def Reading.push (r : Reading) (c : Char) : Reading :=
  let next : Reading := ⟨r.value, r.group * 10 + digitValue c, r.scale * 10⟩
  if next.scale = 1000000000 then { value := next.close } else next

/-- The number that decimal digits write. -/
def ofDigits (digits : List Char) : Magnitude := (digits.foldl Reading.push {}).close

/-! ## Printing -/

theorem toNat_divHalf_lt (m : Magnitude) (h : 0 < toNat m) :
    toNat (divHalf m 1000000000).1 < toNat m := by
  rw [(divHalf_value m (by decide) (by decide)).1]
  exact Nat.div_lt_self h (by decide)

/-- The groups of nine digits, least significant first. -/
def groups (m : Magnitude) : List Word :=
  if isZero m then []
  else (divHalf m 1000000000).2 :: groups (divHalf m 1000000000).1
termination_by toNat m
decreasing_by
  rename_i h
  exact toNat_divHalf_lt m ((isZero_eq_false_iff m).1 (Bool.not_eq_true _ ▸ h))

/-- The digit with a value below ten. -/
def digitChar (d : Word) : Char := Nat.digitChar d.toNat

/-- The last `k` decimal digits of a word. -/
def lastDigits : Nat → Word → List Char
  | 0, _ => []
  | k + 1, w => lastDigits k (w / 10) ++ [digitChar (w % 10)]

/-- The decimal digits of a number, without leading zeros. -/
def digits (m : Magnitude) : List Char :=
  if isZero m then ['0']
  else ((groups m).reverse.flatMap (lastDigits 9)).dropWhile (· == '0')

end Fractran.Magnitude
