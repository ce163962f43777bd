/-
  Canonical magnitudes.

  Main statements:
  - `eq_of_toNat_eq`: a canonical magnitude is determined by the number that it denotes;
  - `canonical_add`, `canonical_sub`, `canonical_mul`, `canonical_divMod`, `canonical_gcd` and
    `canonical_ofDigits`: every operation makes canonical results from canonical arguments.
    Differences, products and numerals are trimmed, so they are canonical whatever they come from.
-/
import Fractran.Magnitude.Numeral

namespace Fractran.Magnitude

theorem canonical_nil : Canonical [] := by simp [Canonical]

theorem canonical_singleton {w : Word} : Canonical [w] ↔ w ≠ 0 := by simp [Canonical]

theorem canonical_cons_iff {w : Word} {ws : Magnitude} (h : ws ≠ []) :
    Canonical (w :: ws) ↔ Canonical ws := by
  obtain ⟨v, vs, rfl⟩ := List.exists_cons_of_ne_nil h
  simp [Canonical, List.getLast?_cons_cons]

theorem canonical_cons {w : Word} {ws : Magnitude} (h : ws ≠ []) (hc : Canonical ws) :
    Canonical (w :: ws) := (canonical_cons_iff h).2 hc

theorem canonical_tail {w : Word} {ws : Magnitude} (h : Canonical (w :: ws)) : Canonical ws := by
  by_cases hn : ws = []
  · rw [hn]; exact canonical_nil
  · exact (canonical_cons_iff hn).1 h

theorem canonical_consTrim (w : Word) {ws : Magnitude} (h : Canonical ws) :
    Canonical (consTrim w ws) := by
  cases ws with
  | nil =>
    simp only [consTrim]
    split
    · exact canonical_nil
    · exact canonical_singleton.2 (by assumption)
  | cons v vs => exact canonical_cons (by simp) h

theorem canonical_ofWord (w : Word) : Canonical (ofWord w) := canonical_consTrim w canonical_nil

theorem canonical_trim (m : Magnitude) : Canonical (trim m) := by
  induction m with
  | nil => exact canonical_nil
  | cons w ws ih => exact canonical_consTrim w ih

/-! ## Uniqueness -/

theorem toNat_pos_of_canonical {m : Magnitude} (h : Canonical m) (hn : m ≠ []) : 0 < toNat m := by
  induction m with
  | nil => exact absurd rfl hn
  | cons w ws ih =>
    rw [toNat_cons]
    by_cases hw : ws = []
    · subst hw
      have hw0 : w.toNat ≠ 0 := fun h0 => canonical_singleton.1 h (UInt64.toNat_inj.1 h0)
      omega
    · have := ih (canonical_tail h) hw
      omega

theorem eq_nil_iff_toNat_eq_zero {m : Magnitude} (h : Canonical m) : m = [] ↔ toNat m = 0 := by
  constructor
  · rintro rfl; rfl
  · intro h0
    by_cases hn : m = []
    · exact hn
    · have := toNat_pos_of_canonical h hn
      omega

/-- Canonical magnitudes of the same number are equal. -/
theorem eq_of_toNat_eq {a b : Magnitude} (ha : Canonical a) (hb : Canonical b)
    (h : toNat a = toNat b) : a = b := by
  induction a generalizing b with
  | nil => exact ((eq_nil_iff_toNat_eq_zero hb).2 h.symm).symm
  | cons x xs ih =>
    cases b with
    | nil => exact (eq_nil_iff_toNat_eq_zero ha).2 h
    | cons y ys =>
      have hx := x.toNat_lt
      have hy := y.toNat_lt
      rw [toNat_cons, toNat_cons] at h
      have hxy : x = y := UInt64.toNat_inj.1 (by omega)
      rw [hxy, ih (canonical_tail ha) (canonical_tail hb) (by omega)]

theorem isZero_iff_eq_nil {m : Magnitude} (h : Canonical m) : isZero m = true ↔ m = [] := by
  rw [isZero_iff, eq_nil_iff_toNat_eq_zero h]

/-! ## Operations -/

theorem addWord_ne_nil {m : Magnitude} (n : Word) (h : m ≠ []) : addWord m n ≠ [] := by
  cases m with
  | nil => exact absurd rfl h
  | cons w ws =>
    rw [addWord]
    split <;> simp

theorem canonical_addWord {m : Magnitude} (n : Word) (h : Canonical m) :
    Canonical (addWord m n) := by
  induction m generalizing n with
  | nil => exact canonical_ofWord n
  | cons w ws ih =>
    rw [addWord]
    split
    · exact h
    · by_cases hw : ws = []
      · subst hw
        rename_i hn
        by_cases hlt : w + n < n
        · rw [if_pos hlt]
          exact canonical_cons (by simp [addWord, ofWord, consTrim])
            (canonical_ofWord _)
        · rw [if_neg hlt]
          simp only [addWord, ofWord, consTrim, if_true]
          rw [canonical_singleton]
          intro h0
          apply hlt
          rw [h0, UInt64.lt_iff_toNat_lt, UInt64.toNat_zero]
          exact Nat.pos_of_ne_zero fun hz => hn (UInt64.toNat_inj.1 hz)
      · exact canonical_cons (addWord_ne_nil _ hw) (ih _ (canonical_tail h))

theorem addWith_ne_nil (a : Magnitude) {b : Magnitude} (carry : Word) (h : b ≠ []) :
    addWith a b carry ≠ [] := by
  fun_induction addWith a b carry with
  | case1 ys carry => exact addWord_ne_nil carry h
  | case2 x xs carry => exact absurd rfl h
  | case3 x xs y ys carry ih => simp

theorem addWith_ne_nil_left {a : Magnitude} (b : Magnitude) (carry : Word) (h : a ≠ []) :
    addWith a b carry ≠ [] := by
  fun_induction addWith a b carry with
  | case1 ys carry => exact absurd rfl h
  | case2 x xs carry => exact addWord_ne_nil carry h
  | case3 x xs y ys carry ih => simp

theorem canonical_addWith {a b : Magnitude} {carry : Word} (hc : carry.toNat ≤ 1)
    (ha : Canonical a) (hb : Canonical b) : Canonical (addWith a b carry) := by
  fun_induction addWith a b carry with
  | case1 ys carry => exact canonical_addWord carry hb
  | case2 x xs carry => exact canonical_addWord carry ha
  | case3 x xs y ys carry ih =>
    have hrest := ih (Word.addCarry_carry_le x y carry) (canonical_tail ha) (canonical_tail hb)
    by_cases hn : addWith xs ys (Word.addCarry x y carry).2 = []
    · have hxs : xs = [] := by
        by_cases hx : xs = []
        · exact hx
        · exact absurd hn (addWith_ne_nil_left _ _ hx)
      have hys : ys = [] := by
        by_cases hy : ys = []
        · exact hy
        · exact absurd hn (addWith_ne_nil _ _ hy)
      subst hxs hys
      rw [hn, canonical_singleton]
      intro h0
      have hv := Word.addCarry_value x y hc
      have hs := toNat_addWith [] [] (Word.addCarry x y carry).2 (Word.addCarry_carry_le x y carry)
      have hx := toNat_pos_of_canonical ha (by simp)
      rw [hn] at hs
      simp only [toNat_nil, toNat_cons] at hs hx
      rw [h0, UInt64.toNat_zero] at hv
      omega
    · exact canonical_cons hn hrest

theorem canonical_add {a b : Magnitude} (ha : Canonical a) (hb : Canonical b) :
    Canonical (add a b) := canonical_addWith (by simp) ha hb

theorem canonical_double {m : Magnitude} (h : Canonical m) : Canonical (double m) :=
  canonical_add h h

theorem canonical_sub (a b : Magnitude) : Canonical (sub a b) := canonical_trim _

theorem canonical_mulHalf (m : Magnitude) (n : Word) : Canonical (mulHalf m n) := canonical_trim _

theorem canonical_shiftHalf {m : Magnitude} (entering : Word) (he : entering.toNat < 0x100000000)
    (h : Canonical m) : Canonical (shiftHalf m entering) := by
  induction m generalizing entering with
  | nil => exact canonical_ofWord entering
  | cons w ws ih =>
    rw [shiftHalf]
    have hrest := ih (Word.high w) (Word.toNat_high_lt w) (canonical_tail h)
    by_cases hn : shiftHalf ws (Word.high w) = []
    · have hv := toNat_shiftHalf ws (Word.high w) (Word.toNat_high_lt w)
      have hp := toNat_pos_of_canonical h (by simp)
      rw [hn, Word.toNat_high] at hv
      rw [hn, canonical_singleton]
      intro h0
      have h0 := congrArg UInt64.toNat h0
      rw [UInt64.toNat_add, Word.toNat_shiftLeft_half, UInt64.toNat_zero] at h0
      rw [toNat_nil] at hv
      rw [toNat_cons] at hp
      omega
    · exact canonical_cons hn hrest

theorem canonical_append {a b : Magnitude} (hn : b ≠ []) (hb : Canonical b) :
    Canonical (a ++ b) := by
  have hv := List.getLast?_eq_some_getLast hn
  unfold Canonical at *
  rw [List.getLast?_append, hv, Option.some_or, ← hv]
  exact hb

theorem canonical_shiftHalves {m : Magnitude} (k : Nat) (h : Canonical m) :
    Canonical (shiftHalves m k) := by
  unfold shiftHalves
  split
  · exact canonical_nil
  · rename_i hm
    have hm : m ≠ [] := by simpa using hm
    split
    · refine canonical_append ?_ (canonical_shiftHalf 0 (by simp) h)
      intro hn
      have hv := toNat_shiftHalf m 0 (by simp)
      have hp := toNat_pos_of_canonical h hm
      rw [hn, toNat_nil] at hv
      omega
    · exact canonical_append hm h

theorem canonical_mul (a b : Magnitude) : Canonical (mul a b) := by
  have key : ∀ (hs : List (Word × Nat)) (acc : Magnitude), Canonical acc →
      Canonical (hs.foldl (addPartial a) acc) := by
    intro hs
    induction hs with
    | nil => exact fun acc hacc => hacc
    | cons h hs ih =>
      intro acc hacc
      apply ih
      unfold addPartial
      split
      · exact hacc
      · exact canonical_add hacc (canonical_shiftHalves _ (canonical_mulHalf _ _))
  exact key _ _ canonical_nil

theorem canonical_foldr_takeOff {a : Magnitude} (ha : Canonical a) (f : Magnitude) {g : Magnitude}
    (hg : Canonical g) (hf : 0 < toNat f) :
    Canonical ((doublings a f g hf).foldr takeOff ([], a)).1 ∧
      Canonical ((doublings a f g hf).foldr takeOff ([], a)).2 := by
  fun_induction doublings a f g hf with
  | case1 => exact ⟨canonical_nil, ha⟩
  | case2 f g hf hge ih =>
    have hrest := ih (canonical_double hg)
    rw [List.foldr_cons, takeOff]
    split
    · exact hrest
    · exact ⟨canonical_add hrest.1 hg, canonical_sub _ _⟩

theorem canonical_divLong {a : Magnitude} (n : Magnitude) (hn : 0 < toNat n) (ha : Canonical a) :
    Canonical (divLong a n hn).1 ∧ Canonical (divLong a n hn).2 :=
  canonical_foldr_takeOff ha n (canonical_singleton.2 (by decide)) hn

theorem canonical_divMod {a : Magnitude} (n : Magnitude) (ha : Canonical a) :
    Canonical (divMod a n).1 ∧ Canonical (divMod a n).2 := by
  unfold divMod
  split
  · exact ⟨canonical_nil, ha⟩
  · split
    · exact ⟨canonical_trim _, canonical_ofWord _⟩
    · exact canonical_divLong n _ ha

theorem canonical_div {a : Magnitude} (n : Magnitude) (ha : Canonical a) : Canonical (div a n) :=
  (canonical_divMod n ha).1

theorem canonical_mod {a : Magnitude} (n : Magnitude) (ha : Canonical a) : Canonical (mod a n) :=
  (canonical_divMod n ha).2

theorem canonical_gcd {a b : Magnitude} (ha : Canonical a) (hb : Canonical b) :
    Canonical (gcd a b) := by
  fun_induction gcd a b with
  | case1 a b h => exact ha
  | case2 a b h ih => exact ih hb (canonical_mod b ha)

theorem canonical_ofDigits (digits : List Char) : Canonical (ofDigits digits) :=
  canonical_addWord _ (canonical_mulHalf _ _)

end Fractran.Magnitude
