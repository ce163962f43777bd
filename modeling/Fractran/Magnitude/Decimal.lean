/-
  Reading and printing against the standard decimal notation of natural numbers.

  Main statements:
  - `toNat_ofDigits`: reading gives the value of the digits, wherever the groups fall;
  - `digits_eq_toDigits`: printing gives the standard digits of the value.
-/
import Fractran.Magnitude.Canonical
import Mathlib.Algebra.Group.Nat.Defs

namespace Fractran.Magnitude

/-! ## Digits -/

theorem isDigit_iff {c : Char} : c.isDigit = true ↔ 48 ≤ c.toNat ∧ c.toNat ≤ 57 := by
  simp only [Char.isDigit, Bool.and_eq_true, decide_eq_true_eq, UInt32.le_iff_toNat_le]
  exact Iff.rfl

theorem toNat_digitValue {c : Char} (h : c.isDigit = true) :
    (digitValue c).toNat = c.toNat - 48 := by
  rw [isDigit_iff] at h
  rw [digitValue, Nat.toUInt64_eq, UInt64.toNat_ofNat_of_lt']
  · rfl
  · rw [UInt64.size]
    have : '0'.toNat = 48 := rfl
    omega

theorem toDigits_digit {c : Char} (h : c.isDigit = true) : Nat.toDigits 10 (c.toNat - 48) = [c] := by
  rw [isDigit_iff] at h
  rw [Nat.toDigits_of_lt_base (by omega)]
  congr 1
  apply Char.toNat_inj.1
  rw [Nat.toNat_digitChar_of_lt_ten (by omega)]
  omega

/-! ## Reading -/

/-- The groups are whole, and the open group has fewer than nine digits. -/
def Reading.Open (r : Reading) (k : Nat) : Prop :=
  k ≤ 8 ∧ r.scale.toNat = 10 ^ k ∧ r.group.toNat < 10 ^ k

/-- The number read so far. -/
def Reading.total (r : Reading) : Nat := r.value.toNat * r.scale.toNat + r.group.toNat

theorem Reading.toNat_close {r : Reading} (h : r.scale.toNat < 0x100000000) :
    r.close.toNat = r.total := by
  rw [Reading.close, toNat_addWord, toNat_mulHalf _ h, Reading.total]

theorem pow_ten_le {k : Nat} (h : k ≤ 8) : 10 ^ k ≤ 100000000 :=
  Nat.pow_le_pow_right (by decide) h

theorem Reading.push_open {r : Reading} {k : Nat} (h : r.Open k) {c : Char}
    (hc : c.isDigit = true) :
    (∃ k', (r.push c).Open k') ∧ (r.push c).total = 10 * r.total + (c.toNat - 48) := by
  obtain ⟨hk, hs, hg⟩ := h
  have hp := pow_ten_le hk
  have hd := toNat_digitValue hc
  rw [isDigit_iff] at hc
  have hgroup : (r.group * 10 + digitValue c).toNat = 10 * r.group.toNat + (c.toNat - 48) := by
    rw [UInt64.toNat_add, UInt64.toNat_mul, hd]
    simp only [UInt64.toNat_ofNat]
    omega
  have hscale : (r.scale * 10).toNat = 10 ^ (k + 1) := by
    rw [UInt64.toNat_mul, hs, Nat.pow_succ]
    simp only [UInt64.toNat_ofNat]
    omega
  have htotal : Reading.total ⟨r.value, r.group * 10 + digitValue c, r.scale * 10⟩ =
      10 * r.total + (c.toNat - 48) := by
    simp only [Reading.total]
    rw [hgroup, hscale, hs, Nat.pow_succ, ← Nat.mul_assoc]
    omega
  simp only [Reading.push]
  split
  · rename_i h9
    refine ⟨⟨0, by omega, rfl, by simp⟩, ?_⟩
    have hclose : (Reading.close ⟨r.value, r.group * 10 + digitValue c, r.scale * 10⟩).toNat = _ :=
      Reading.toNat_close (show (r.scale * 10).toNat < 0x100000000 by rw [h9]; decide)
    rw [← htotal, ← hclose]
    simp [Reading.total]
  · rename_i h9
    refine ⟨⟨k + 1, ?_, hscale, ?_⟩, htotal⟩
    · by_cases h8 : k = 8
      · subst h8
        exact absurd (UInt64.toNat_inj.1 hscale) h9
      · omega
    · rw [hgroup, Nat.pow_succ]
      omega

theorem Reading.foldl_push {r : Reading} {k : Nat} (h : r.Open k) {ds : List Char}
    (hd : ∀ c ∈ ds, c.isDigit = true) :
    (∃ k', (ds.foldl Reading.push r).Open k') ∧
      (ds.foldl Reading.push r).total = Nat.ofDigitChars 10 ds r.total := by
  induction ds generalizing r k with
  | nil => exact ⟨⟨k, h⟩, rfl⟩
  | cons c ds ih =>
    obtain ⟨⟨k', h'⟩, ht⟩ := push_open h (hd c List.mem_cons_self)
    obtain ⟨hopen, htotal⟩ := ih h' fun x hx => hd x (List.mem_cons_of_mem _ hx)
    refine ⟨hopen, ?_⟩
    rw [List.foldl_cons, htotal, ht, Nat.ofDigitChars_cons]
    rfl

/-- Reading gives the value of the digits. -/
theorem toNat_ofDigits {ds : List Char} (h : ∀ c ∈ ds, c.isDigit = true) :
    toNat (ofDigits ds) = Nat.ofDigitChars 10 ds 0 := by
  have hstart : Reading.Open {} 0 := ⟨by omega, rfl, by decide⟩
  obtain ⟨⟨k, hk, hs, hg⟩, ht⟩ := Reading.foldl_push hstart h
  have hp := pow_ten_le hk
  rw [ofDigits, Reading.toNat_close (by omega), ht]
  rfl

/-! ## Printing -/

theorem isDigit_digitChar {d : Nat} (h : d < 10) : (Nat.digitChar d).isDigit = true := by
  rw [isDigit_iff, Nat.toNat_digitChar_of_lt_ten h]
  omega

theorem lastDigits_isDigit (k : Nat) (w : Word) : ∀ c ∈ lastDigits k w, c.isDigit = true := by
  induction k generalizing w with
  | zero => simp [lastDigits]
  | succ k ih =>
    intro c hc
    simp only [lastDigits, List.mem_append, List.mem_singleton] at hc
    rcases hc with hc | rfl
    · exact ih _ c hc
    · refine isDigit_digitChar ?_
      rw [UInt64.toNat_mod]
      exact Nat.mod_lt _ (by decide)

theorem ofDigitChars_lastDigits (k : Nat) (w : Word) (h : w.toNat < 10 ^ k) (init : Nat) :
    Nat.ofDigitChars 10 (lastDigits k w) init = init * 10 ^ k + w.toNat := by
  induction k generalizing w init with
  | zero =>
    simp [lastDigits]
    simpa using h
  | succ k ih =>
    have hdiv : (w / 10).toNat = w.toNat / 10 := UInt64.toNat_div _ _
    have hmod : (w % 10).toNat = w.toNat % 10 := UInt64.toNat_mod _ _
    rw [Nat.pow_succ] at h ⊢
    rw [lastDigits, Nat.ofDigitChars_append, ih _ (by omega), Nat.ofDigitChars_cons,
      Nat.ofDigitChars_nil, digitChar, Nat.toNat_digitChar_of_lt_ten (by omega), hdiv, hmod,
      ← Nat.mul_assoc]
    have : '0'.toNat = 48 := rfl
    omega

theorem ofDigitChars_groups (m : Magnitude) :
    Nat.ofDigitChars 10 ((groups m).reverse.flatMap (lastDigits 9)) 0 = toNat m := by
  fun_induction groups m with
  | case1 m h => exact ((isZero_iff m).1 h).symm
  | case2 m h ih =>
    obtain ⟨hq, hr⟩ := divHalf_value m (n := 1000000000) (by decide) (by decide)
    rw [List.reverse_cons, List.flatMap_append, Nat.ofDigitChars_append, ih, List.flatMap_singleton,
      ofDigitChars_lastDigits 9 _ (by rw [hr]; exact Nat.mod_lt _ (by decide)), hq, hr]
    have : UInt64.toNat 1000000000 = 1000000000 := rfl
    rw [this]
    omega

theorem toDigits_ofDigitChars_append {ds : List Char} (h : ∀ c ∈ ds, c.isDigit = true) {n : Nat}
    (hn : 0 < n) : Nat.toDigits 10 n ++ ds = Nat.toDigits 10 (Nat.ofDigitChars 10 ds n) := by
  induction ds generalizing n with
  | nil => simp
  | cons c ds ih =>
    have hc := h c List.mem_cons_self
    have hr := isDigit_iff.1 hc
    have hz : '0'.toNat = 48 := rfl
    rw [Nat.ofDigitChars_cons, ← ih (fun x hx => h x (List.mem_cons_of_mem _ hx)) (by omega),
      ← Nat.toDigits_append_toDigits (by decide) hn (by omega), hz, toDigits_digit hc]
    simp

/-- Without its leading zeros a digit string is the standard notation of its value. -/
theorem dropWhile_zero_eq_toDigits {ds : List Char} (h : ∀ c ∈ ds, c.isDigit = true)
    (hpos : 0 < Nat.ofDigitChars 10 ds 0) :
    ds.dropWhile (· == '0') = Nat.toDigits 10 (Nat.ofDigitChars 10 ds 0) := by
  induction ds with
  | nil => simp at hpos
  | cons c ds ih =>
    have hrest : ∀ x ∈ ds, x.isDigit = true := fun x hx => h x (List.mem_cons_of_mem _ hx)
    rw [List.dropWhile_cons]
    by_cases hc : c = '0'
    · subst hc
      rw [Nat.ofDigitChars_cons] at hpos ⊢
      simpa using ih hrest (by simpa using hpos)
    · have hd := h c List.mem_cons_self
      have hr := isDigit_iff.1 hd
      have hz : '0'.toNat = 48 := rfl
      have hne : c.toNat ≠ 48 := fun he => hc (Char.toNat_inj.1 he)
      rw [if_neg (by simpa using hc), Nat.ofDigitChars_cons, Nat.mul_zero, Nat.zero_add,
        ← toDigits_ofDigitChars_append hrest (by omega), hz, toDigits_digit hd]
      rfl

/-- Printing gives the standard decimal notation. -/
theorem digits_eq_toDigits (m : Magnitude) : digits m = Nat.toDigits 10 (toNat m) := by
  unfold digits
  split
  · rename_i hz
    rw [(isZero_iff m).1 hz]
    rfl
  · rename_i hz
    rw [Bool.not_eq_true, isZero_eq_false_iff] at hz
    have hv := ofDigitChars_groups m
    rw [dropWhile_zero_eq_toDigits _ (by rw [hv]; exact hz), hv]
    intro c hc
    obtain ⟨g, _, hg⟩ := List.mem_flatMap.1 hc
    exact lastDigits_isDigit 9 g c hg

end Fractran.Magnitude
