/-
  Tests and comparisons of integers against the numbers that they denote.

  The tests look at words and signs. On canonical integers they say what they should say of the
  numbers:
  - `compare_toInt`: the order is the order of the numbers;
  - `isZero_iff_no_words`, `isOne_iff`, `isOdd_iff`, `sign_toInt`: each test is the test of the
    same name on the number;
  - `negative_iff`: the sign is set exactly on numbers below zero;
  - `compare_eq_compareSized`: the number of words decides first, then the words from the most
    significant one down.
-/
import Fractran.Integer.Lemmas

namespace Fractran.Magnitude

/-! ## Comparison by size -/

/-- Compares by the number of words, then word by word from the most significant one down. -/
def compareSized (a b : Magnitude) : Ordering :=
  (Ord.compare a.length b.length).then (List.compareLex Ord.compare a.reverse b.reverse)

/-- A canonical magnitude fills its words: its most significant word counts at least one. -/
theorem shiftLeft_le_toNat {m : Magnitude} (h : Canonical m) (hn : m ≠ []) :
    1 <<< (64 * (m.length - 1)) ≤ toNat m := by
  induction m with
  | nil => exact absurd rfl hn
  | cons w ws ih =>
    by_cases hw : ws = []
    · subst hw
      exact toNat_pos_of_canonical h hn
    · have hlow := ih (canonical_tail h) hw
      have hlen : 0 < ws.length := List.length_pos_iff.2 hw
      have he : 64 * ((w :: ws).length - 1) = 64 * (ws.length - 1) + 64 := by
        rw [List.length_cons]; omega
      rw [he, Nat.shiftLeft_add, toNat_cons]
      omega

/-- Of two canonical magnitudes the one with fewer words is the smaller one. -/
theorem toNat_lt_of_length_lt {a b : Magnitude} (hb : Canonical b) (h : a.length < b.length) :
    toNat a < toNat b := by
  have hn : b ≠ [] := List.ne_nil_of_length_pos (by omega)
  calc toNat a < 1 <<< (64 * a.length) := toNat_lt a
    _ ≤ 1 <<< (64 * (b.length - 1)) := by
      rw [Nat.one_shiftLeft, Nat.one_shiftLeft]
      exact Nat.pow_le_pow_right (by decide) (by omega)
    _ ≤ toNat b := shiftLeft_le_toNat hb hn

theorem compareLex_append_singleton {xs ys : Magnitude} (h : xs.length = ys.length) (x y : Word) :
    List.compareLex Ord.compare (xs ++ [x]) (ys ++ [y]) =
      (List.compareLex Ord.compare xs ys).then (Ord.compare x y) := by
  induction xs generalizing ys with
  | nil =>
    obtain rfl := List.length_eq_zero_iff.1 h.symm
    simp [List.compareLex_cons_cons, List.compareLex_nil_nil]
  | cons a xs ih =>
    cases ys with
    | nil => simp at h
    | cons b ys =>
      rw [List.cons_append, List.cons_append, List.compareLex_cons_cons, List.compareLex_cons_cons,
        ih (by simpa using h)]
      cases Ord.compare a b <;> rfl

theorem compare_eq_compareLex {a b : Magnitude} (h : a.length = b.length) :
    compare a b = List.compareLex Ord.compare a.reverse b.reverse := by
  induction a generalizing b with
  | nil =>
    obtain rfl := List.length_eq_zero_iff.1 h.symm
    rfl
  | cons x xs ih =>
    cases b with
    | nil => simp at h
    | cons y ys =>
      have hlen : xs.length = ys.length := by simpa using h
      rw [compare, ih hlen, List.reverse_cons, List.reverse_cons,
        compareLex_append_singleton (by simpa using hlen)]

/-- On canonical magnitudes the word counts decide first. -/
theorem compare_eq_compareSized {a b : Magnitude} (ha : Canonical a) (hb : Canonical b) :
    compare a b = compareSized a b := by
  unfold compareSized
  rcases Nat.lt_trichotomy a.length b.length with h | h | h
  · rw [Nat.compare_eq_lt.2 h, compare_eq, Nat.compare_eq_lt.2 (toNat_lt_of_length_lt hb h)]
    rfl
  · rw [Nat.compare_eq_eq.2 h, compare_eq_compareLex h]
    rfl
  · rw [Nat.compare_eq_gt.2 h, compare_eq, Nat.compare_eq_gt.2 (toNat_lt_of_length_lt ha h)]
    rfl

end Fractran.Magnitude

namespace Fractran.Integer

/-! ## Tests -/

theorem isZero_iff_no_words {a : Integer} (h : a.Canonical) :
    a.isZero = true ↔ a.magnitude = [] :=
  Magnitude.isZero_iff_eq_nil h.1

theorem isOne_iff {a : Integer} (h : a.Canonical) : a.isOne = true ↔ a.toInt = 1 := by
  rw [isOne, beq_iff_eq]
  constructor
  · rintro rfl
    rfl
  · intro h1
    exact eq_of_toInt_eq h canonical_one (h1.trans toInt_one.symm)

theorem sign_toInt (a : Integer) : a.sign = a.toInt.sign := by
  unfold sign
  by_cases hz : a.isZero = true
  · rw [if_pos hz, (isZero_iff a).1 hz]
    rfl
  · have hne : a.toInt ≠ 0 := fun h0 => hz ((isZero_iff a).2 h0)
    rw [if_neg hz]
    unfold toInt at hne ⊢
    cases hs : a.negative with
    | false =>
      simp only [hs, Bool.false_eq_true, reduceIte] at hne ⊢
      exact (Int.sign_eq_one_of_pos (by omega)).symm
    | true =>
      simp only [hs, reduceIte] at hne ⊢
      exact (Int.sign_eq_neg_one_of_neg (by omega)).symm

theorem isPositive_iff (a : Integer) : a.isPositive = true ↔ 0 < a.toInt := by
  rw [isPositive, beq_iff_eq, sign_toInt, Int.sign_eq_one_iff_pos]

theorem isOdd_iff (a : Integer) : a.isOdd = true ↔ a.toInt % 2 = 1 := by
  have hmod : a.toInt % 2 = 1 ↔ a.magnitude.toNat % 2 = 1 := by
    rw [← natAbs_toInt]
    omega
  rw [hmod]
  unfold isOdd
  cases a.magnitude with
  | nil => simp
  | cons w ws =>
    have hw : (w &&& 1).toNat = w.toNat % 2 := by
      rw [UInt64.toNat_and]
      exact Nat.and_one_is_mod _
    simp only [beq_iff_eq, ← UInt64.toNat_inj, hw, Magnitude.toNat_cons]
    have : UInt64.toNat 1 = 1 := rfl
    omega

/-! ## Order -/

/-- A canonical integer with its sign set is below zero. -/
theorem toInt_neg_of_negative {a : Integer} (h : a.Canonical) (hs : a.negative = true) :
    a.toInt < 0 := by
  have hne : a.magnitude ≠ [] := by
    intro hm
    rw [h.2 hm] at hs
    cases hs
  have hpos := Magnitude.toNat_pos_of_canonical h.1 hne
  rw [toInt, if_pos hs]
  omega

theorem toInt_nonneg_of_not_negative {a : Integer} (hs : a.negative = false) : 0 ≤ a.toInt := by
  rw [toInt, hs]
  simp

theorem negative_eq_false {a : Integer} (h : a.Canonical) (ha : 0 ≤ a.toInt) :
    a.negative = false := by
  rw [← Bool.not_eq_true]
  intro hs
  have := toInt_neg_of_negative h hs
  omega

theorem negative_eq_true {a : Integer} (ha : a.toInt < 0) : a.negative = true := by
  rw [← Bool.not_eq_false]
  intro hs
  have := toInt_nonneg_of_not_negative hs
  omega

/-- The sign of a canonical integer is set exactly below zero. -/
theorem negative_iff {a : Integer} (h : a.Canonical) : a.negative = true ↔ a.toInt < 0 :=
  ⟨toInt_neg_of_negative h, negative_eq_true⟩

theorem compare_toInt {a b : Integer} (ha : a.Canonical) (hb : b.Canonical) :
    a.compare b = Ord.compare a.toInt b.toInt := by
  unfold compare
  cases hs : a.negative with
  | false =>
    have hpa := toInt_nonneg_of_not_negative hs
    cases ht : b.negative with
    | false =>
      simp only [toInt, hs, ht, Magnitude.compare_eq, Bool.false_eq_true, reduceIte]
      rcases Nat.lt_trichotomy a.magnitude.toNat b.magnitude.toNat with h | h | h
      · rw [Nat.compare_eq_lt.2 h, Int.compare_eq_lt.2 (by omega)]
      · rw [Nat.compare_eq_eq.2 h, Int.compare_eq_eq.2 (by omega)]
      · rw [Nat.compare_eq_gt.2 h, Int.compare_eq_gt.2 (by omega)]
    | true =>
      have hnb := toInt_neg_of_negative hb ht
      exact (Int.compare_eq_gt.2 (by omega)).symm
  | true =>
    have hna := toInt_neg_of_negative ha hs
    cases ht : b.negative with
    | false =>
      have hpb := toInt_nonneg_of_not_negative ht
      exact (Int.compare_eq_lt.2 (by omega)).symm
    | true =>
      simp only [toInt, hs, ht, Magnitude.compare_eq, reduceIte]
      rcases Nat.lt_trichotomy b.magnitude.toNat a.magnitude.toNat with h | h | h
      · rw [Nat.compare_eq_lt.2 h, Int.compare_eq_lt.2 (by omega)]
      · rw [Nat.compare_eq_eq.2 h, Int.compare_eq_eq.2 (by omega)]
      · rw [Nat.compare_eq_gt.2 h, Int.compare_eq_gt.2 (by omega)]

theorem lt_iff_toInt_lt {a b : Integer} (ha : a.Canonical) (hb : b.Canonical) :
    a < b ↔ a.toInt < b.toInt := by
  show a.compare b = .lt ↔ _
  rw [compare_toInt ha hb, Int.compare_eq_lt]

theorem le_iff_toInt_le {a b : Integer} (ha : a.Canonical) (hb : b.Canonical) :
    a ≤ b ↔ a.toInt ≤ b.toInt := by
  show (a.compare b).isLE = true ↔ _
  rw [compare_toInt ha hb, Int.isLE_compare]

theorem eq_iff_toInt_eq {a b : Integer} (ha : a.Canonical) (hb : b.Canonical) :
    a = b ↔ a.toInt = b.toInt :=
  ⟨congrArg toInt, eq_of_toInt_eq ha hb⟩

end Fractran.Integer
