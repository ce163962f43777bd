/-
  Sums and differences of magnitudes, word by word with a carry or a borrow.

  Where one argument has run out of words, the carry goes on into the other alone. Both
  operations are exact for all arguments, the difference for a subtrahend that is not larger.
-/
import Fractran.Magnitude.Basic

namespace Fractran.Magnitude

/-- Adds one word and hands the carry on as far as it goes. -/
def addWord : Magnitude → Word → Magnitude
  | [], n => ofWord n
  | w :: ws, n => if n = 0 then w :: ws else (w + n) :: addWord ws (if w + n < n then 1 else 0)

/-- The sum of two magnitudes and a carry. -/
def addWith : Magnitude → Magnitude → Word → Magnitude
  | [], ys, carry => addWord ys carry
  | x :: xs, [], carry => addWord (x :: xs) carry
  | x :: xs, y :: ys, carry =>
    (Word.addCarry x y carry).1 :: addWith xs ys (Word.addCarry x y carry).2

/-- The sum of two magnitudes. -/
def add (a b : Magnitude) : Magnitude := addWith a b 0

/-- Takes a borrow from the least significant word and hands it on as far as it goes. -/
def borrowFrom : Magnitude → Word → Magnitude
  | [], _ => []
  | w :: ws, n => if n = 0 then w :: ws else (w - n) :: borrowFrom ws (if w < n then 1 else 0)

/-- The words of the difference of two magnitudes, less a borrow. -/
def subWith : Magnitude → Magnitude → Word → Magnitude
  | [], _, _ => []
  | x :: xs, [], borrow => borrowFrom (x :: xs) borrow
  | x :: xs, y :: ys, borrow =>
    (Word.subBorrow x y borrow).1 :: subWith xs ys (Word.subBorrow x y borrow).2

/-- The difference of two magnitudes of which the second is not larger. -/
def sub (a b : Magnitude) : Magnitude := trim (subWith a b 0)

/-- Twice a magnitude. -/
def double (m : Magnitude) : Magnitude := add m m

/-! ## Values -/

theorem toNat_addWord (m : Magnitude) (n : Word) : toNat (addWord m n) = toNat m + n.toNat := by
  induction m generalizing n with
  | nil => simp [addWord, toNat_ofWord]
  | cons w ws ih =>
    have hw := w.toNat_lt
    have hn := n.toNat_lt
    rw [addWord]
    split
    · simp_all
    · rw [toNat_cons, ih, toNat_cons]
      simp only [UInt64.lt_iff_toNat_lt, UInt64.toNat_add]
      split <;> simp <;> omega

theorem toNat_addWith (a b : Magnitude) (carry : Word) (hc : carry.toNat ≤ 1) :
    toNat (addWith a b carry) = toNat a + toNat b + carry.toNat := by
  fun_induction addWith a b carry with
  | case1 ys carry => simp [toNat_addWord]
  | case2 x xs carry => simp [toNat_addWord]
  | case3 x xs y ys carry ih =>
    have hv := Word.addCarry_value x y hc
    rw [toNat_cons, ih (Word.addCarry_carry_le x y carry), toNat_cons, toNat_cons]
    omega

theorem toNat_add (a b : Magnitude) : toNat (add a b) = toNat a + toNat b := by
  simp [add, toNat_addWith]

theorem toNat_double (m : Magnitude) : toNat (double m) = 2 * toNat m := by
  rw [double, toNat_add]
  omega

theorem toNat_borrowFrom (m : Magnitude) (n : Word) (h : n.toNat ≤ toNat m) :
    toNat (borrowFrom m n) + n.toNat = toNat m := by
  induction m generalizing n with
  | nil => simp_all [borrowFrom]
  | cons w ws ih =>
    have hw := w.toNat_lt
    have hn := n.toNat_lt
    rw [toNat_cons] at h
    rw [borrowFrom]
    by_cases hz : n = 0
    · simp [hz]
    · rw [if_neg hz, toNat_cons, toNat_cons, UInt64.toNat_sub]
      by_cases hlt : w < n
      · have := ih 1 (by simp [UInt64.lt_iff_toNat_lt] at hlt ⊢; omega)
        simp [UInt64.lt_iff_toNat_lt] at hlt this
        simp [UInt64.lt_iff_toNat_lt, hlt]
        omega
      · have := ih 0 (by simp)
        simp [UInt64.lt_iff_toNat_lt] at hlt this
        simp [UInt64.lt_iff_toNat_lt, Nat.not_lt.2 hlt, this]
        omega

theorem toNat_subWith (a b : Magnitude) (borrow : Word) (hb : borrow.toNat ≤ 1)
    (h : toNat b + borrow.toNat ≤ toNat a) :
    toNat (subWith a b borrow) + toNat b + borrow.toNat = toNat a := by
  fun_induction subWith a b borrow with
  | case1 ys borrow => simp_all
  | case2 x xs borrow => simpa using toNat_borrowFrom (x :: xs) borrow (by simpa using h)
  | case3 x xs y ys borrow ih =>
    have hv := Word.subBorrow_value x y hb
    have hd := (Word.subBorrow x y borrow).1.toNat_lt
    have hx := x.toNat_lt
    have hle := Word.subBorrow_borrow_le x y borrow
    rw [toNat_cons, toNat_cons] at h
    have := ih hle (by omega)
    rw [toNat_cons, toNat_cons, toNat_cons]
    omega

theorem toNat_sub (a b : Magnitude) (h : toNat b ≤ toNat a) :
    toNat (sub a b) = toNat a - toNat b := by
  have := toNat_subWith a b 0 (by simp) (by simpa using h)
  rw [sub, toNat_trim]
  simp at this
  omega

end Fractran.Magnitude
