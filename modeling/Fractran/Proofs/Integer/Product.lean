/-
  Products of integers in registers.

  The multiplier is used up half by half, the lowest first. After `k` halves the loop holds the
  multiplicand times what these halves denote, with no bit or carry lost (`toNat_partialSum`); one
  more half adds its partial product, moved up by `k` halves, or nothing if it is zero
  (`partialSum_succ`). When all halves are used up the loop holds the product
  (`partialSum_all`), which is canonical and has a sign only if it is not zero (`product_mul`).
-/
import Fractran.Proofs.Integer.Registers

namespace Fractran

/-! ## The multiplication loop -/

namespace Magnitude

/-- The sum of the partial products by the `k` lowest halves of `b`. -/
def partialSum (a b : Magnitude) (k : Nat) : Magnitude :=
  ((halves b).take k).zipIdx.foldl (addPartial a) []

/-- What the half at position `k` of `b` is, and what it adds. -/
structure AddsHalf (a b : Magnitude) (k : Nat) (half : Word) : Prop where
  digit : half.toNat = toNat b >>> (32 * k) % 0x100000000
  product : toNat (mulHalf a half) = toNat a * half.toNat
  moved : toNat (shiftHalves (mulHalf a half) k) = (toNat a * half.toNat) <<< (32 * k)
  skipped : half = 0 → partialSum a b (k + 1) = partialSum a b k
  added : half ≠ 0 →
    partialSum a b (k + 1) = add (partialSum a b k) (shiftHalves (mulHalf a half) k)
  total : toNat (partialSum a b (k + 1)) =
    toNat (partialSum a b k) + (toNat a * half.toNat) <<< (32 * k)

theorem halves_cons (w : Word) (ws : Magnitude) :
    halves (w :: ws) = Word.low w :: Word.high w :: halves ws := rfl

theorem length_halves (m : Magnitude) : (halves m).length = 2 * m.length := by
  induction m with
  | nil => rfl
  | cons w ws ih =>
    rw [halves_cons, List.length_cons, List.length_cons, ih, List.length_cons]
    omega

/-- A half is the number without the lower halves and modulo the higher ones. -/
theorem toNat_getElem_halves {m : Magnitude} {k : Nat} {half : Word}
    (h : (halves m)[k]? = some half) : half.toNat = toNat m >>> (32 * k) % 0x100000000 := by
  induction m generalizing k with
  | nil => cases h
  | cons w ws ih =>
    have hw := w.toNat_lt
    rw [halves_cons] at h
    -- The first word gives the first two halves; behind them stand those of the other words.
    match k with
    | 0 =>
      obtain rfl : Word.low w = half := Option.some.inj h
      rw [Word.toNat_low, Nat.mul_zero, Nat.shiftRight_zero, toNat_cons]
      omega
    | 1 =>
      obtain rfl : Word.high w = half := Option.some.inj h
      rw [Word.toNat_high, Nat.mul_one, Nat.shiftRight_eq_div_pow, toNat_cons]
      omega
    | k + 2 =>
      have hrest : toNat (w :: ws) >>> 64 = toNat ws := by
        rw [Nat.shiftRight_eq_div_pow, toNat_cons]
        omega
      rw [ih h, show 32 * (k + 2) = 64 + 32 * k by omega, Nat.shiftRight_add, hrest]

theorem partialSum_succ (a : Magnitude) {b : Magnitude} {k : Nat} {half : Word}
    (h : (halves b)[k]? = some half) :
    partialSum a b (k + 1) = addPartial a (partialSum a b k) (half, k) := by
  have hk : k < (halves b).length := (List.getElem?_eq_some_iff.1 h).1
  have hlen : ((halves b).take k).length = k := List.length_take_of_le (by omega)
  unfold partialSum
  rw [List.take_add_one, h, List.zipIdx_append, hlen, List.foldl_append, Nat.zero_add]
  rfl

theorem partialSum_all (a b : Magnitude) : partialSum a b (2 * b.length) = mul a b := by
  rw [partialSum, ← length_halves, List.take_length, mul]

/-- One more half of the modulus lets one more half of the number through. -/
theorem mod_shiftLeft_succ (n k : Nat) :
    n % (1 <<< (32 * (k + 1))) =
      n % (1 <<< (32 * k)) + (n >>> (32 * k) % 0x100000000) <<< (32 * k) := by
  have hpow : 1 <<< (32 * (k + 1)) = 1 <<< (32 * k) * 0x100000000 := by
    rw [Nat.mul_succ, Nat.shiftLeft_add, Nat.shiftLeft_eq]
  rw [hpow, Nat.mod_mul, Nat.shiftRight_eq_div_pow, Nat.one_shiftLeft, Nat.shiftLeft_eq,
    Nat.mul_comm (2 ^ (32 * k))]

/-- The invariant of the loop: after `k` halves it holds the product by the lower `32 * k` bits. -/
theorem toNat_partialSum (a b : Magnitude) {k : Nat} (hk : k ≤ 2 * b.length) :
    toNat (partialSum a b k) = toNat a * (toNat b % (1 <<< (32 * k))) := by
  -- On the number of halves: a step adds what `mod_shiftLeft_succ` lets through.
  induction k with
  | zero =>
    rw [Nat.mul_zero, Nat.shiftLeft_zero, Nat.mod_one, Nat.mul_zero]
    rfl
  | succ k ih =>
    have hlt : k < (halves b).length := by
      rw [length_halves]
      omega
    have hget := List.getElem?_eq_getElem hlt
    generalize (halves b)[k] = half at hget
    have hhalf : half.toNat < 0x100000000 := halves_lt b half (List.mem_of_getElem? hget)
    have hmoved : (toNat a * half.toNat) <<< (32 * k) = toNat a * half.toNat <<< (32 * k) := by
      rw [Nat.shiftLeft_eq, Nat.shiftLeft_eq, Nat.mul_assoc]
    rw [partialSum_succ a hget, toNat_addPartial a _ hhalf, ih (by omega), mod_shiftLeft_succ,
      ← toNat_getElem_halves hget, hmoved, Nat.mul_add]

theorem addsHalf (a : Magnitude) {b : Magnitude} {k : Nat} {half : Word}
    (h : (halves b)[k]? = some half) : AddsHalf a b k half := by
  have hlt : half.toNat < 0x100000000 := halves_lt b half (List.mem_of_getElem? h)
  refine ⟨toNat_getElem_halves h, toNat_mulHalf a hlt, ?_, ?_, ?_, ?_⟩
  · rw [toNat_shiftHalves, toNat_mulHalf a hlt]
  · intro h0
    rw [partialSum_succ a h, addPartial, if_pos h0]
  · intro h0
    rw [partialSum_succ a h, addPartial, if_neg h0]
  · rw [partialSum_succ a h, toNat_addPartial a _ hlt]

end Magnitude

namespace Integer

/-! ## Products of integers -/

/-- `p` is the product of `a` and `b`, made from the partial products by the halves of `b`. -/
structure Product (a b p : Integer) : Prop where
  canonical : p.Canonical
  value : p.toInt = a.toInt * b.toInt
  sign : p.negative = true ↔ a.toInt * b.toInt < 0
  zero : a.toInt * b.toInt = 0 → p = .zero
  divided : b.toInt ≠ 0 → p.tdiv b = a ∧ p.tmod b = .zero
  words : p.magnitude = a.magnitude.partialSum b.magnitude (2 * b.magnitude.length)

/-- Dividing a product by a factor gives back the words and the sign of the other. -/
theorem mul_divided {a b : Integer} (ha : a.Canonical) (hb : b.toInt ≠ 0) :
    (a * b).tdiv b = a ∧ (a * b).tmod b = .zero := by
  constructor
  · apply eq_of_toInt_eq (canonical_tdiv b (canonical_mul a b)) ha
    rw [toInt_tdiv, toInt_mul, Int.mul_tdiv_cancel _ hb]
  · apply eq_of_toInt_eq (canonical_tmod b (canonical_mul a b)) canonical_zero
    rw [toInt_tmod, toInt_mul, Int.mul_tmod_left, toInt_zero]

theorem product_mul {a : Integer} (ha : a.Canonical) (b : Integer) : Product a b (a * b) where
  canonical := canonical_mul a b
  value := toInt_mul a b
  sign := by rw [negative_iff (canonical_mul a b), toInt_mul]
  zero := by
    intro h0
    apply eq_of_toInt_eq (canonical_mul a b) canonical_zero
    rw [toInt_mul, h0, toInt_zero]
  divided := mul_divided ha
  words := (Magnitude.partialSum_all a.magnitude b.magnitude).symm

namespace Registers

/-- Whatever is in the registers: multiplying one by another, or by itself, puts the exact product
    in canonical form into it, for any signs and sizes; zero gets no sign. Each half of the
    multiplier adds its exact partial product, moved up to the place of the half, and after any
    number of halves nothing of the product so far is lost. -/
theorem product_exact {regs : Registers} (h : Reachable regs) (target source : Nat) :
    let a := regs.get target
    let b := regs.get source
    ∃ p, Product a b p ∧ regs.exec (.combine .mul target source) = .ok (regs.set target p) ∧
      (∀ k half, b.magnitude.halves[k]? = some half →
        Magnitude.AddsHalf a.magnitude b.magnitude k half) ∧
      ∀ k, k ≤ 2 * b.magnitude.length →
        (a.magnitude.partialSum b.magnitude k).toNat =
          a.magnitude.toNat * (b.magnitude.toNat % (1 <<< (32 * k))) := by
  intro a b
  refine ⟨a * b, product_mul (canonical_get h.canonical target) b, rfl, ?_, ?_⟩
  · intro k half hget
    exact Magnitude.addsHalf a.magnitude hget
  · intro k hk
    exact Magnitude.toNat_partialSum a.magnitude b.magnitude hk

/-- `-(2 ^ 128 - 1)` multiplied by itself: every half is full and every step carries. -/
theorem product_exact_full_words :
    ∃ regs : Registers, Reachable regs ∧
      (regs.get 0).toInt = -340282366920938463463374607431768211455 ∧
      regs.exec (.combine .mul 0 0) =
        .ok [⟨false, [1, 0, 0xFFFFFFFFFFFFFFFE, 0xFFFFFFFFFFFFFFFF]⟩] := by
  have hreach : Reachable [⟨true, [0xFFFFFFFFFFFFFFFF, 0xFFFFFFFFFFFFFFFF]⟩] :=
    reachable_of_numerals ["-340282366920938463463374607431768211455"] (by decide +kernel)
  obtain ⟨p, hproduct, hmul, -⟩ := product_exact hreach 0 0
  have hp : p = ⟨false, [1, 0, 0xFFFFFFFFFFFFFFFE, 0xFFFFFFFFFFFFFFFF]⟩ :=
    eq_of_toInt_eq hproduct.canonical (by decide) hproduct.value
  rw [hp] at hmul
  exact ⟨_, hreach, by decide, hmul⟩

end Registers

end Integer

end Fractran
