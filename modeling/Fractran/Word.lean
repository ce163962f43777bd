/-
  Machine words: 64-bit digits of a magnitude and the four word steps that carry into the
  next digit.

  Products and quotients go through the 32-bit halves of a word, so that no intermediate value
  leaves 64 bits as long as the multiplier or divisor stays below `2 ^ 32`. Each step is pinned
  by one equation over `Nat`: what it stores and what it hands on add up to the exact result.
  Sizes stand in hexadecimal, `2 ^ 32` as `0x100000000` and `2 ^ 64` as `0x10000000000000000`.
-/

namespace Fractran

/-- One 64-bit digit. -/
abbrev Word := UInt64

namespace Word

/-- The low half of a word. -/
def low (w : Word) : Word := w &&& 0xFFFFFFFF

/-- The high half of a word. -/
def high (w : Word) : Word := w >>> 32

/-- `x + y + carry` as a digit and the carry out of it. -/
def addCarry (x y carry : Word) : Word × Word :=
  let sum := x + y
  let total := sum + carry
  (total, if sum < x ∨ total < sum then 1 else 0)

/-- `x - y - borrow` as a digit and the borrow out of it. -/
def subBorrow (x y borrow : Word) : Word × Word :=
  let difference := x - y
  (difference - borrow, if x < y ∨ difference < borrow then 1 else 0)

/-- `w * n + carry` as a digit and the carry out of it, for a multiplier below `2 ^ 32`. -/
def mulCarry (w n carry : Word) : Word × Word :=
  let highPart := high w * n
  let lowPart := low w * n
  (lowPart + (low highPart <<< 32) + carry, (highPart + ((lowPart + carry) >>> 32)) >>> 32)

/-- The digit of the quotient and the new remainder when `w` follows the remainder `r` in a
    division by `n < 2 ^ 32`, one half at a time. -/
def divCarry (r w n : Word) : Word × Word :=
  let upper := (r <<< 32) + high w
  let lower := ((upper % n) <<< 32) + low w
  (((upper / n) <<< 32) + lower / n, lower % n)

/-! ## What the steps compute -/

theorem toNat_low (w : Word) : (low w).toNat = w.toNat % 0x100000000 := by
  unfold low
  rw [UInt64.toNat_and]
  exact Nat.and_two_pow_sub_one_eq_mod w.toNat 32

theorem toNat_high (w : Word) : (high w).toNat = w.toNat / 0x100000000 := by
  simp [high, UInt64.toNat_shiftRight, Nat.shiftRight_eq_div_pow]

theorem toNat_shiftLeft_half (w : Word) : (w <<< 32).toNat = w.toNat * 0x100000000 % 0x10000000000000000 := by
  simp [UInt64.toNat_shiftLeft, Nat.shiftLeft_eq]

theorem toNat_shiftRight_half (w : Word) : (w >>> 32).toNat = w.toNat / 0x100000000 := toNat_high w

theorem toNat_low_lt (w : Word) : (low w).toNat < 0x100000000 := by
  rw [toNat_low]; omega

theorem toNat_high_lt (w : Word) : (high w).toNat < 0x100000000 := by
  have := w.toNat_lt
  rw [toNat_high]; omega

theorem toNat_low_add_high (w : Word) : (low w).toNat + 0x100000000 * (high w).toNat = w.toNat := by
  rw [toNat_low, toNat_high]; omega

theorem addCarry_value (x y : Word) {carry : Word} (hc : carry.toNat ≤ 1) :
    (addCarry x y carry).1.toNat + 0x10000000000000000 * (addCarry x y carry).2.toNat =
      x.toNat + y.toNat + carry.toNat := by
  have hx := x.toNat_lt
  have hy := y.toNat_lt
  simp only [addCarry, UInt64.lt_iff_toNat_lt, UInt64.toNat_add]
  split <;> simp <;> omega

theorem addCarry_carry_le (x y carry : Word) : (addCarry x y carry).2.toNat ≤ 1 := by
  simp only [addCarry]
  split <;> simp

theorem subBorrow_value (x y : Word) {borrow : Word} (hb : borrow.toNat ≤ 1) :
    (subBorrow x y borrow).1.toNat + y.toNat + borrow.toNat =
      x.toNat + 0x10000000000000000 * (subBorrow x y borrow).2.toNat := by
  have hx := x.toNat_lt
  have hy := y.toNat_lt
  simp only [subBorrow, UInt64.lt_iff_toNat_lt, UInt64.toNat_sub]
  split <;> simp <;> omega

theorem subBorrow_borrow_le (x y borrow : Word) : (subBorrow x y borrow).2.toNat ≤ 1 := by
  simp only [subBorrow]
  split <;> simp

/-- A half times a multiplier below `2 ^ 32` leaves room for another `2 ^ 33 - 2`. -/
theorem half_mul_lt {h n : Nat} (hh : h < 0x100000000) (hn : n < 0x100000000) :
    h * n ≤ 0x10000000000000000 - 0x200000000 + 1 :=
  Nat.le_trans (Nat.mul_le_mul (Nat.le_pred_of_lt hh) (Nat.le_pred_of_lt hn)) (by decide)

theorem mulCarry_value (w : Word) {n carry : Word} (hn : n.toNat < 0x100000000)
    (hc : carry.toNat < 0x100000000) :
    (mulCarry w n carry).1.toNat + 0x10000000000000000 * (mulCarry w n carry).2.toNat =
      w.toNat * n.toNat + carry.toNat := by
  have hl := half_mul_lt (toNat_low_lt w) hn
  have hh := half_mul_lt (toNat_high_lt w) hn
  have hw : w.toNat * n.toNat =
      (low w).toNat * n.toNat + 0x100000000 * ((high w).toNat * n.toNat) := by
    rw [← Nat.mul_assoc, ← Nat.add_mul, toNat_low_add_high]
  simp only [mulCarry, UInt64.toNat_add, toNat_shiftLeft_half, toNat_shiftRight_half, toNat_low,
    UInt64.toNat_mul] at *
  rw [hw]
  generalize w.toNat % 0x100000000 * n.toNat = l at *
  generalize (high w).toNat * n.toNat = h at *
  omega

theorem mulCarry_carry_lt (w n carry : Word) : (mulCarry w n carry).2.toNat < 0x100000000 := by
  simp only [mulCarry, toNat_shiftRight_half]
  have := UInt64.toNat_lt (high w * n + ((low w * n + carry) >>> 32))
  omega

theorem divCarry_rem_lt (r w : Word) {n : Word} (hn : 0 < n.toNat) :
    (divCarry r w n).2.toNat < n.toNat := by
  simp only [divCarry, UInt64.toNat_mod]
  exact Nat.mod_lt _ hn

/-- A remainder followed by one more half is below `2 ^ 32` times the divisor. -/
theorem half_step_lt {r h n : Nat} (hh : h < 0x100000000) (hr : r < n) : r * 0x100000000 + h < 0x100000000 * n := by
  omega

/-- Behind a remainder below the divisor, shifting in one more half does not wrap. -/
theorem toNat_half_step {r h n : Word} (hn : n.toNat < 0x100000000) (hr : r.toNat < n.toNat)
    (hh : h.toNat < 0x100000000) : ((r <<< 32) + h).toNat = r.toNat * 0x100000000 + h.toNat := by
  rw [UInt64.toNat_add, toNat_shiftLeft_half]
  omega

/-- Behind a remainder below the divisor, one more half gives one more half of the quotient. -/
theorem toNat_half_quotient_lt {r h n : Word} (hn : n.toNat < 0x100000000)
    (hr : r.toNat < n.toNat) (hh : h.toNat < 0x100000000) :
    (((r <<< 32) + h) / n).toNat < 0x100000000 := by
  rw [UInt64.toNat_div, toNat_half_step hn hr hh, Nat.div_lt_iff_lt_mul (Nat.zero_lt_of_lt hr)]
  exact half_step_lt hh hr

/-- The two partial quotients are halves of one word. -/
theorem toNat_join_halves {q p : Word} (hq : q.toNat < 0x100000000) (hp : p.toNat < 0x100000000) :
    ((q <<< 32) + p).toNat = q.toNat * 0x100000000 + p.toNat := by
  rw [UInt64.toNat_add, toNat_shiftLeft_half]
  omega

theorem divCarry_value (w : Word) {r n : Word} (hn : n.toNat < 0x100000000) (hr : r.toNat < n.toNat) :
    (divCarry r w n).1.toNat * n.toNat + (divCarry r w n).2.toNat =
      r.toNat * 0x10000000000000000 + w.toNat := by
  have hpos : 0 < n.toNat := Nat.zero_lt_of_lt hr
  have hupper := toNat_half_step hn hr (toNat_high_lt w)
  have hq := toNat_half_quotient_lt hn hr (toNat_high_lt w)
  have hdiv := Nat.div_add_mod ((r <<< 32) + high w).toNat n.toNat
  have hmod := Nat.mod_lt ((r <<< 32) + high w).toNat hpos
  rw [← UInt64.toNat_mod] at hdiv hmod
  rw [← UInt64.toNat_div] at hdiv
  simp only [divCarry]
  generalize (r <<< 32) + high w = upper at *
  have hlower := toNat_half_step hn hmod (toNat_low_lt w)
  have hp := toNat_half_quotient_lt hn hmod (toNat_low_lt w)
  have hdiv' := Nat.div_add_mod (((upper % n) <<< 32) + low w).toNat n.toNat
  rw [← UInt64.toNat_mod, ← UInt64.toNat_div] at hdiv'
  generalize ((upper % n) <<< 32) + low w = lower at *
  have hw := toNat_low_add_high w
  rw [toNat_join_halves hq hp, Nat.add_mul, Nat.mul_right_comm, Nat.mul_comm _ n.toNat,
    Nat.mul_comm (lower / n).toNat]
  omega

end Word

end Fractran
