/-
  Sums and differences of integers in registers.

  Both are exact and canonical for any signs and sizes (`sum_add`), so what was added can be
  taken off again and leaves the same words (`add_sub_self`). The signs choose between adding the
  magnitudes and taking the smaller from the larger. A carry or a borrow may also be found by
  32-bit halves, the borrow from the bits above a difference that wrapped around: word by word this
  gives the same digits (`addHalves_eq_addCarry`, `subHalves_eq_subBorrow`), and so the same
  magnitudes (`add_eq_addByHalves`, `sub_eq_subByHalves`).
-/
import Fractran.Proofs.Integer.Registers

namespace Fractran

/-! ## One word by its halves -/

namespace Word

/-- `x + y + carry` by halves: what a sum of two halves has above 32 bits is its carry. -/
def addHalves (x y carry : Word) : Word × Word :=
  let lower := low x + low y + carry
  let upper := high x + high y + high lower
  ((low upper <<< 32) ||| low lower, high upper)

/-- `w + n` as a digit, and a carry if the sum wrapped around. -/
def addStep (w n : Word) : Word × Word := (w + n, if w + n < n then 1 else 0)

/-- The borrow of a difference of two halves: bits above its 32 show that it wrapped around. -/
def wrapped (difference : Word) : Word := if high difference = 0 then 0 else 1

/-- `x - y - borrow` by halves. -/
def subHalves (x y borrow : Word) : Word × Word :=
  let lower := low x - low y - borrow
  let upper := high x - high y - wrapped lower
  ((low upper <<< 32) ||| low lower, wrapped upper)

theorem toNat_or_halves {h l : Word} (hh : h.toNat < 0x100000000) (hl : l.toNat < 0x100000000) :
    ((h <<< 32) ||| l).toNat = l.toNat + 0x100000000 * h.toNat := by
  have hshift : (h <<< 32).toNat = h.toNat <<< 32 := by
    rw [toNat_shiftLeft_half, Nat.shiftLeft_eq, Nat.mod_eq_of_lt (by omega)]
  rw [UInt64.toNat_or, hshift, ← Nat.shiftLeft_add_eq_or_of_lt hl, Nat.shiftLeft_eq,
    Nat.mul_comm, Nat.add_comm]

/-- A sum of two halves and a carry does not leave the word. -/
theorem half_sum {h k carry : Word} (hh : h.toNat < 0x100000000) (hk : k.toNat < 0x100000000)
    (hc : carry.toNat ≤ 1) :
    (low (h + k + carry)).toNat + 0x100000000 * (high (h + k + carry)).toNat =
      h.toNat + k.toNat + carry.toNat ∧ (high (h + k + carry)).toNat ≤ 1 := by
  have hsum : (h + k + carry).toNat = h.toNat + k.toNat + carry.toNat := by
    rw [UInt64.toNat_add, UInt64.toNat_add]
    omega
  rw [toNat_low_add_high, toNat_high, hsum]
  omega

theorem wrapped_le (difference : Word) : (wrapped difference).toNat ≤ 1 := by
  unfold wrapped
  split <;> simp

/-- A difference of two halves less a borrow wraps around exactly if it is below zero. -/
theorem half_difference {h k borrow : Word} (hh : h.toNat < 0x100000000)
    (hk : k.toNat < 0x100000000) (hb : borrow.toNat ≤ 1) :
    (low (h - k - borrow)).toNat + k.toNat + borrow.toNat =
      h.toNat + 0x100000000 * (wrapped (h - k - borrow)).toNat := by
  have hd : (h - k - borrow).toNat =
      (0x10000000000000000 + h.toNat - k.toNat - borrow.toNat) % 0x10000000000000000 := by
    rw [UInt64.toNat_sub, UInt64.toNat_sub]
    omega
  -- The difference is below `2 ^ 32`, or it wrapped around and is at least `2 ^ 64 - 2 ^ 32`.
  unfold wrapped
  split
  · rename_i hz
    rw [← UInt64.toNat_inj, toNat_high, hd, UInt64.toNat_zero] at hz
    rw [toNat_low, hd, UInt64.toNat_zero]
    omega
  · rename_i hz
    rw [← UInt64.toNat_inj, toNat_high, hd, UInt64.toNat_zero] at hz
    rw [toNat_low, hd, UInt64.toNat_one]
    omega

theorem addHalves_value (x y : Word) {carry : Word} (hc : carry.toNat ≤ 1) :
    (addHalves x y carry).1.toNat + 0x10000000000000000 * (addHalves x y carry).2.toNat =
      x.toNat + y.toNat + carry.toNat := by
  have hx := toNat_low_add_high x
  have hy := toNat_low_add_high y
  obtain ⟨hlower, hle⟩ := half_sum (toNat_low_lt x) (toNat_low_lt y) hc
  obtain ⟨hupper, -⟩ := half_sum (toNat_high_lt x) (toNat_high_lt y) hle
  simp only [addHalves]
  rw [toNat_or_halves (toNat_low_lt _) (toNat_low_lt _)]
  omega

theorem addHalves_carry_le (x y : Word) {carry : Word} (hc : carry.toNat ≤ 1) :
    (addHalves x y carry).2.toNat ≤ 1 := by
  have hlower := (half_sum (toNat_low_lt x) (toNat_low_lt y) hc).2
  exact (half_sum (toNat_high_lt x) (toNat_high_lt y) hlower).2

theorem subHalves_borrow_le (x y borrow : Word) : (subHalves x y borrow).2.toNat ≤ 1 :=
  wrapped_le _

theorem subHalves_value (x y : Word) {borrow : Word} (hb : borrow.toNat ≤ 1) :
    (subHalves x y borrow).1.toNat + y.toNat + borrow.toNat =
      x.toNat + 0x10000000000000000 * (subHalves x y borrow).2.toNat := by
  have hx := toNat_low_add_high x
  have hy := toNat_low_add_high y
  have hlower := half_difference (toNat_low_lt x) (toNat_low_lt y) hb
  have hupper := half_difference (toNat_high_lt x) (toNat_high_lt y)
    (wrapped_le (low x - low y - borrow))
  simp only [subHalves]
  rw [toNat_or_halves (toNat_low_lt _) (toNat_low_lt _)]
  omega

/-- A digit and a carry are determined by the sum that they make up. -/
theorem eq_of_sum_eq {p q : Word × Word}
    (h : p.1.toNat + 0x10000000000000000 * p.2.toNat =
      q.1.toNat + 0x10000000000000000 * q.2.toNat) : p = q := by
  have hp := p.1.toNat_lt
  have hq := q.1.toNat_lt
  exact Prod.ext (UInt64.toNat_inj.1 (by omega)) (UInt64.toNat_inj.1 (by omega))

/-- A digit and a borrow are determined by the difference that they make up. -/
theorem eq_of_difference_eq {p q : Word × Word}
    (h : p.1.toNat + 0x10000000000000000 * q.2.toNat =
      q.1.toNat + 0x10000000000000000 * p.2.toNat) : p = q := by
  have hswap : (p.1, q.2) = (q.1, p.2) := eq_of_sum_eq h
  obtain ⟨hdigit, hborrow⟩ := Prod.mk.inj hswap
  exact Prod.ext hdigit hborrow.symm

theorem addHalves_eq_addCarry (x y : Word) {carry : Word} (hc : carry.toNat ≤ 1) :
    addHalves x y carry = addCarry x y carry :=
  eq_of_sum_eq ((addHalves_value x y hc).trans (addCarry_value x y hc).symm)

theorem addStep_value (w n : Word) :
    (addStep w n).1.toNat + 0x10000000000000000 * (addStep w n).2.toNat = w.toNat + n.toNat := by
  have hw := w.toNat_lt
  have hn := n.toNat_lt
  simp only [addStep, UInt64.lt_iff_toNat_lt, UInt64.toNat_add]
  split <;> simp <;> omega

theorem addStep_zero (w : Word) : addStep w 0 = (w, 0) := by simp [addStep]

theorem addHalves_eq_addStep (w : Word) {n : Word} (hn : n.toNat ≤ 1) :
    addHalves w 0 n = addStep w n := by
  apply eq_of_sum_eq
  rw [addHalves_value w 0 hn, addStep_value, UInt64.toNat_zero, Nat.add_zero]

theorem subHalves_eq_subBorrow (x y : Word) {borrow : Word} (hb : borrow.toNat ≤ 1) :
    subHalves x y borrow = subBorrow x y borrow := by
  have hhalves := subHalves_value x y hb
  have hwhole := subBorrow_value x y hb
  exact eq_of_difference_eq (by omega)

end Word

/-! ## Magnitudes by halves -/

namespace Magnitude

/-- Runs a word step over the words of the first magnitude and hands the carry on; where the
    second has run out of words it counts as zero. -/
def ripple (step : Word → Word → Word → Word × Word) :
    Magnitude → Magnitude → Word → Magnitude × Word
  | [], _, carry => ([], carry)
  | x :: xs, ys, carry =>
    let digit := step x (ys.headD 0) carry
    let rest := ripple step xs ys.tail digit.2
    (digit.1 :: rest.1, rest.2)

/-- The words of a sum; a carry out of the last word gets a word of its own. -/
def withCarry (sum : Magnitude × Word) : Magnitude := sum.1 ++ ofWord sum.2

/-- The sum by halves: the first magnitude gets at least as many words as the second. -/
def addByHalves (a b : Magnitude) : Magnitude :=
  withCarry (ripple Word.addHalves (a ++ List.replicate (b.length - a.length) 0) b 0)

/-- The difference by halves, for a second magnitude that is not larger. -/
def subByHalves (a b : Magnitude) : Magnitude := trim (ripple Word.subHalves a b 0).1

theorem addWord_zero (m : Magnitude) : addWord m 0 = m := by
  cases m with
  | nil => rfl
  | cons w ws => rw [addWord, if_pos rfl]

theorem borrowFrom_zero (m : Magnitude) : borrowFrom m 0 = m := by
  cases m with
  | nil => rfl
  | cons w ws => rw [borrowFrom, if_pos rfl]

theorem addWord_cons (w : Word) (ws : Magnitude) (n : Word) :
    addWord (w :: ws) n = (Word.addStep w n).1 :: addWord ws (Word.addStep w n).2 := by
  rw [addWord]
  split
  · rename_i h0
    rw [h0, Word.addStep_zero, addWord_zero]
  · rfl

theorem borrowFrom_cons (w : Word) (ws : Magnitude) {n : Word} (hn : n.toNat ≤ 1) :
    borrowFrom (w :: ws) n =
      (Word.subHalves w 0 n).1 :: borrowFrom ws (Word.subHalves w 0 n).2 := by
  have hw := w.toNat_lt
  have hv := Word.subHalves_value w 0 hn
  have hstep : Word.subHalves w 0 n = (w - n, if w < n then 1 else 0) := by
    apply Word.eq_of_difference_eq
    rw [UInt64.toNat_zero] at hv
    simp only [UInt64.lt_iff_toNat_lt, UInt64.toNat_sub]
    split <;> simp <;> omega
  rw [borrowFrom, hstep]
  split
  · rename_i h0
    subst h0
    simp [borrowFrom_zero]
  · rfl

theorem addWord_eq_ripple (m : Magnitude) {n : Word} (hn : n.toNat ≤ 1) :
    addWord m n = withCarry (ripple Word.addHalves m [] n) := by
  induction m generalizing n with
  | nil => rfl
  | cons w ws ih =>
    rw [addWord_cons, ← Word.addHalves_eq_addStep w hn, ih (Word.addHalves_carry_le w 0 hn)]
    rfl

theorem borrowFrom_eq_ripple (m : Magnitude) {n : Word} (hn : n.toNat ≤ 1) :
    borrowFrom m n = (ripple Word.subHalves m [] n).1 := by
  induction m generalizing n with
  | nil => rfl
  | cons w ws ih =>
    rw [borrowFrom_cons w ws hn, ih (Word.subHalves_borrow_le w 0 n)]
    rfl

/-- Adding to zero words and adding zero words is the same. -/
theorem ripple_zeros (m : Magnitude) {n : Word} (hn : n.toNat ≤ 1) :
    ripple Word.addHalves (List.replicate m.length 0) m n = ripple Word.addHalves m [] n := by
  induction m generalizing n with
  | nil => rfl
  | cons w ws ih =>
    have hcomm : Word.addHalves 0 w n = Word.addHalves w 0 n := by
      have h := Word.addHalves_value 0 w hn
      have h' := Word.addHalves_value w 0 hn
      exact Word.eq_of_sum_eq (by omega)
    rw [List.length_cons, List.replicate_succ]
    simp only [ripple, List.headD_cons, List.headD_nil, List.tail_cons, List.tail_nil]
    rw [hcomm, ih (Word.addHalves_carry_le w 0 hn)]

theorem addWith_eq_ripple (a b : Magnitude) {n : Word} (hn : n.toNat ≤ 1) :
    addWith a b n = withCarry
      (ripple Word.addHalves (a ++ List.replicate (b.length - a.length) 0) b n) := by
  fun_induction addWith a b n with
  | case1 ys n =>
    rw [List.nil_append, List.length_nil, Nat.sub_zero, ripple_zeros ys hn, addWord_eq_ripple ys hn]
  | case2 x xs n =>
    rw [List.length_nil, Nat.zero_sub, List.replicate_zero, List.append_nil,
      addWord_eq_ripple _ hn]
  | case3 x xs y ys n ih =>
    rw [ih (Word.addCarry_carry_le x y n), List.length_cons, List.length_cons,
      Nat.add_sub_add_right, ← Word.addHalves_eq_addCarry x y hn]
    rfl

theorem subWith_eq_ripple (a b : Magnitude) {n : Word} (hn : n.toNat ≤ 1) :
    subWith a b n = (ripple Word.subHalves a b n).1 := by
  fun_induction subWith a b n with
  | case1 ys n => rfl
  | case2 x xs n => exact borrowFrom_eq_ripple _ hn
  | case3 x xs y ys n ih =>
    rw [ih (Word.subBorrow_borrow_le x y n), ← Word.subHalves_eq_subBorrow x y hn]
    rfl

theorem add_eq_addByHalves (a b : Magnitude) : add a b = addByHalves a b :=
  addWith_eq_ripple a b (by simp)

theorem sub_eq_subByHalves (a b : Magnitude) : sub a b = subByHalves a b :=
  congrArg trim (subWith_eq_ripple a b (by simp))

end Magnitude

namespace Integer

/-! ## Sums of integers -/

/-- `s` is the sum of `a` and `b`, made from their magnitudes as the signs ask for. -/
structure Sum (a b s : Integer) : Prop where
  canonical : s.Canonical
  value : s.toInt = a.toInt + b.toInt
  joined : a.negative = b.negative → s.magnitude = a.magnitude.addByHalves b.magnitude
  taken : a.negative ≠ b.negative → b.toInt.natAbs ≤ a.toInt.natAbs →
    s.magnitude = a.magnitude.subByHalves b.magnitude
  swapped : a.negative ≠ b.negative → a.toInt.natAbs < b.toInt.natAbs →
    s.magnitude = b.magnitude.subByHalves a.magnitude

theorem sum_add {a b : Integer} (ha : a.Canonical) (hb : b.Canonical) : Sum a b (a + b) where
  canonical := canonical_add ha hb
  value := toInt_add a b
  joined := by
    intro hs
    show (add a b).magnitude = _
    rw [add, if_pos hs]
    exact Magnitude.add_eq_addByHalves _ _
  taken := by
    intro hs hle
    rw [natAbs_toInt, natAbs_toInt, ← Magnitude.below_eq_false_iff] at hle
    show (add a b).magnitude = _
    rw [add, if_neg hs, hle, if_neg Bool.false_ne_true]
    exact Magnitude.sub_eq_subByHalves _ _
  swapped := by
    intro hs hlt
    rw [natAbs_toInt, natAbs_toInt, ← Magnitude.below_iff] at hlt
    show (add a b).magnitude = _
    rw [add, if_neg hs, if_pos hlt]
    exact Magnitude.sub_eq_subByHalves _ _

theorem add_sub_self {a b : Integer} (ha : a.Canonical) (hb : b.Canonical) : a + b - b = a := by
  apply eq_of_toInt_eq (canonical_sub (canonical_add ha hb) hb) ha
  rw [toInt_sub, toInt_add]
  omega

namespace Registers

theorem set_get (regs : Registers) (i : Nat) : regs.set i (regs.get i) = regs := by
  by_cases hi : i < regs.length
  · rw [get, List.getD_eq_getElem?_getD, List.getElem?_eq_getElem hi, Option.getD_some,
      List.set_getElem_self]
  · exact List.set_eq_of_length_le (by omega)

theorem get_set_self {regs : Registers} {i : Nat} (hi : i < regs.length) (v : Integer) :
    get (regs.set i v) i = v := by
  rw [get, List.getD_eq_getElem?_getD, List.getElem?_set_self hi, Option.getD_some]

theorem get_set_ne (regs : Registers) {i j : Nat} (h : i ≠ j) (v : Integer) :
    get (regs.set i v) j = regs.get j := by
  rw [get, List.getD_eq_getElem?_getD, List.getElem?_set_ne h, ← List.getD_eq_getElem?_getD, get]

/-- Adding a number to a register and taking the same number off again changes no register. -/
theorem step_add_sub {regs : Registers} (h : AllCanonical regs) {target source kept : Nat}
    (hne : kept ≠ target) (hkept : regs.get kept = regs.get source) :
    (regs.step (.combine .add target source)).step (.combine .sub target kept) = regs := by
  have hcancel : regs.get target + regs.get source - regs.get kept = regs.get target := by
    rw [hkept]
    exact add_sub_self (canonical_get h target) (canonical_get h source)
  show step (regs.set target (regs.get target + regs.get source)) (.combine .sub target kept) = regs
  generalize hs : regs.get target + regs.get source = s at hcancel
  show (regs.set target s).set target
    (get (regs.set target s) target - get (regs.set target s) kept) = regs
  -- A register that does not exist is never written.
  by_cases ht : target < regs.length
  · rw [get_set_self ht, get_set_ne regs hne.symm, hcancel, List.set_set, set_get]
  · have hout : regs.length ≤ target := by omega
    rw [List.set_eq_of_length_le hout, List.set_eq_of_length_le hout]

/-- Whatever is in the registers: adding a register to another or to itself, and taking it from
    another or from itself, puts the exact sum or difference in canonical form into the first, for
    any signs and sizes. Taking off the number that was added, from wherever it is kept, gives back
    the words and the sign and leaves all registers as they were. -/
theorem sum_difference_exact {regs : Registers} (h : Reachable regs) (target source : Nat) :
    let a := regs.get target
    let b := regs.get source
    ∃ s d, Sum a b s ∧ Sum a (-b) d ∧ d.toInt = a.toInt - b.toInt ∧
      regs.exec (.combine .add target source) = .ok (regs.set target s) ∧
      regs.exec (.combine .sub target source) = .ok (regs.set target d) ∧
      s - b = a ∧
      ∀ kept, kept ≠ target → regs.get kept = b →
        (regs.step (.combine .add target source)).step (.combine .sub target kept) = regs := by
  intro a b
  have ha : a.Canonical := canonical_get h.canonical target
  have hb : b.Canonical := canonical_get h.canonical source
  refine ⟨a + b, a - b, sum_add ha hb, sum_add ha (canonical_neg hb), toInt_sub a b, rfl, rfl,
    add_sub_self ha hb, ?_⟩
  intro kept hne hkept
  exact step_add_sub h.canonical hne hkept

/-- `2 ^ 64` and `-(2 ^ 64 - 1)`: the sum loses its upper word, the difference keeps it. -/
theorem sum_difference_exact_two_words :
    ∃ regs : Registers, Reachable regs ∧ (regs.get 0).toInt = 18446744073709551616 ∧
      (regs.get 1).toInt = -18446744073709551615 ∧
      regs.exec (.combine .add 0 1) = .ok [.one, regs.get 1] ∧
      regs.exec (.combine .sub 0 1) = .ok [⟨false, [0xFFFFFFFFFFFFFFFF, 1]⟩, regs.get 1] ∧
      (regs.step (.combine .add 0 1)).step (.combine .sub 0 1) = regs := by
  have hreach : Reachable [⟨false, [0, 1]⟩, ⟨true, [0xFFFFFFFFFFFFFFFF]⟩] :=
    reachable_of_numerals ["18446744073709551616", "-18446744073709551615"] (by decide +kernel)
  obtain ⟨s, d, hsum, hdifference, -, hadd, hsub, -, hback⟩ := sum_difference_exact hreach 0 1
  have hs : s = .one := eq_of_toInt_eq hsum.canonical canonical_one hsum.value
  have hd : d = ⟨false, [0xFFFFFFFFFFFFFFFF, 1]⟩ :=
    eq_of_toInt_eq hdifference.canonical (by decide) hdifference.value
  rw [hs] at hadd
  rw [hd] at hsub
  exact ⟨_, hreach, by decide, by decide, hadd, hsub, hback 1 (by decide) rfl⟩

end Registers

end Integer

end Fractran
