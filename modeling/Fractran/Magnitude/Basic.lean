/-
  Magnitudes: natural numbers as words, least significant first.

  `toNat` is what a magnitude denotes. A magnitude is canonical when its most significant word
  is not zero, so every number has exactly one canonical magnitude and zero has no words.
  Comparison and the zero test go by value and do not need canonical arguments.
-/
import Fractran.Word

namespace Fractran

/-- The words of a natural number, least significant first. -/
abbrev Magnitude := List Word

namespace Magnitude

/-- The number that the words denote. -/
def toNat : Magnitude → Nat
  | [] => 0
  | w :: ws => w.toNat + 0x10000000000000000 * toNat ws

/-- The most significant word, if there is one, is not zero. -/
def Canonical (m : Magnitude) : Prop := m.getLast? ≠ some 0

instance (m : Magnitude) : Decidable (Canonical m) := inferInstanceAs (Decidable (_ ≠ _))

/-- Puts a word below a magnitude; zero gets no word. -/
def consTrim (w : Word) : Magnitude → Magnitude
  | [] => if w = 0 then [] else [w]
  | ws => w :: ws

/-- Drops the zero words at the most significant end. -/
def trim (m : Magnitude) : Magnitude := m.foldr consTrim []

/-- A single word as a magnitude. -/
def ofWord (w : Word) : Magnitude := consTrim w []

/-- Whether the number is zero. -/
def isZero (m : Magnitude) : Bool := m.all (· == 0)

/-- Compares by value: the more significant words decide first. -/
def compare : Magnitude → Magnitude → Ordering
  | [], ys => if isZero ys then .eq else .lt
  | x :: xs, [] => if isZero (x :: xs) then .eq else .gt
  | x :: xs, y :: ys => (compare xs ys).then (Ord.compare x y)

/-- Whether the first number is below the second. -/
def below (a b : Magnitude) : Bool := compare a b == .lt

/-! ## Values -/

@[simp] theorem toNat_nil : toNat [] = 0 := rfl

@[simp] theorem toNat_cons (w : Word) (ws : Magnitude) :
    toNat (w :: ws) = w.toNat + 0x10000000000000000 * toNat ws := rfl

theorem toNat_append (xs ys : Magnitude) :
    toNat (xs ++ ys) = toNat xs + toNat ys <<< (64 * xs.length) := by
  induction xs with
  | nil => simp
  | cons x xs ih =>
    rw [List.cons_append, toNat_cons, ih, toNat_cons, List.length_cons, Nat.mul_succ,
      Nat.shiftLeft_add]
    omega

theorem toNat_lt (m : Magnitude) : toNat m < 1 <<< (64 * m.length) := by
  induction m with
  | nil => simp
  | cons w ws ih =>
    have := w.toNat_lt
    rw [toNat_cons, List.length_cons, Nat.mul_succ, Nat.shiftLeft_add]
    omega

theorem toNat_consTrim (w : Word) (ws : Magnitude) : toNat (consTrim w ws) = toNat (w :: ws) := by
  cases ws with
  | nil =>
    simp only [consTrim]
    split <;> simp_all
  | cons => rfl

theorem toNat_ofWord (w : Word) : toNat (ofWord w) = w.toNat := by
  simp [ofWord, toNat_consTrim]

theorem toNat_trim (m : Magnitude) : toNat (trim m) = toNat m := by
  induction m with
  | nil => rfl
  | cons w ws ih =>
    show toNat (consTrim w (trim ws)) = _
    rw [toNat_consTrim, toNat_cons, ih, toNat_cons]

theorem isZero_iff (m : Magnitude) : isZero m = true ↔ toNat m = 0 := by
  induction m with
  | nil => simp [isZero]
  | cons w ws ih =>
    have hw : w = 0 ↔ w.toNat = 0 := by rw [← UInt64.toNat_inj]; rfl
    simp only [isZero, List.all_cons, Bool.and_eq_true, beq_iff_eq, toNat_cons, hw] at ih ⊢
    rw [ih]
    omega

theorem isZero_eq_false_iff (m : Magnitude) : isZero m = false ↔ 0 < toNat m := by
  rw [← Bool.not_eq_true, isZero_iff]
  omega

/-- The more significant parts decide; where they agree, the least significant word does. -/
theorem compare_cons (x y a b : Nat) (hx : x < 0x10000000000000000) (hy : y < 0x10000000000000000) :
    Ord.compare (x + 0x10000000000000000 * a) (y + 0x10000000000000000 * b) = (Ord.compare a b).then (Ord.compare x y) := by
  rcases Nat.lt_trichotomy a b with h | h | h
  · rw [Nat.compare_eq_lt.2 h, Nat.compare_eq_lt.2 (by omega)]; rfl
  · subst h
    rw [Nat.compare_eq_eq.2 rfl]
    rcases Nat.lt_trichotomy x y with h | h | h
    · rw [Nat.compare_eq_lt.2 h, Nat.compare_eq_lt.2 (by omega)]; rfl
    · rw [Nat.compare_eq_eq.2 h, Nat.compare_eq_eq.2 (by omega)]; rfl
    · rw [Nat.compare_eq_gt.2 h, Nat.compare_eq_gt.2 (by omega)]; rfl
  · rw [Nat.compare_eq_gt.2 h, Nat.compare_eq_gt.2 (by omega)]; rfl

theorem compare_word (x y : Word) : Ord.compare x y = Ord.compare x.toNat y.toNat := by
  rcases Nat.lt_trichotomy x.toNat y.toNat with h | h | h
  · rw [Nat.compare_eq_lt.2 h, Std.compare_eq_lt, UInt64.lt_iff_toNat_lt]; exact h
  · rw [Nat.compare_eq_eq.2 h, UInt64.toNat_inj.1 h]; exact Std.ReflCmp.compare_self
  · rw [Nat.compare_eq_gt.2 h, Std.compare_eq_gt, UInt64.lt_iff_toNat_lt]; exact h

/-- Comparison is comparison of the denoted numbers. -/
theorem compare_eq (a b : Magnitude) : compare a b = Ord.compare (toNat a) (toNat b) := by
  fun_induction compare a b with
  | case1 ys h => rw [toNat_nil, (isZero_iff ys).1 h]; rfl
  | case2 ys h =>
    rw [Bool.not_eq_true, isZero_eq_false_iff] at h
    exact (Nat.compare_eq_lt.2 h).symm
  | case3 x xs h => rw [toNat_nil, (isZero_iff _).1 h]; rfl
  | case4 x xs h =>
    rw [Bool.not_eq_true, isZero_eq_false_iff] at h
    exact (Nat.compare_eq_gt.2 h).symm
  | case5 x xs y ys ih =>
    rw [toNat_cons, toNat_cons, compare_cons _ _ _ _ x.toNat_lt y.toNat_lt, ih, compare_word]

theorem below_iff (a b : Magnitude) : below a b = true ↔ toNat a < toNat b := by
  rw [below, beq_iff_eq, compare_eq, Nat.compare_eq_lt]

theorem below_eq_false_iff (a b : Magnitude) : below a b = false ↔ toNat b ≤ toNat a := by
  rw [← Bool.not_eq_true, below_iff]
  omega

end Magnitude

end Fractran
