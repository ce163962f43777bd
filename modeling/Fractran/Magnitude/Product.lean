/-
  Products of magnitudes.

  The multiplier is taken apart into 32-bit halves. The product is the sum of the partial
  products by the halves, the `k`-th displaced by `k` halves; a half that is zero adds nothing.
-/
import Fractran.Magnitude.Sum

namespace Fractran.Magnitude

/-- The words of a product by a multiplier below `2 ^ 32`, plus a carry. -/
def mulWith (n : Word) : Magnitude → Word → Magnitude
  | [], carry => ofWord carry
  | w :: ws, carry => (Word.mulCarry w n carry).1 :: mulWith n ws (Word.mulCarry w n carry).2

/-- The product by a multiplier below `2 ^ 32`. -/
def mulHalf (m : Magnitude) (n : Word) : Magnitude := trim (mulWith n m 0)

/-- Moves every word up by one half; the half that leaves a word enters the next. -/
def shiftHalf : Magnitude → Word → Magnitude
  | [], entering => ofWord entering
  | w :: ws, entering => ((w <<< 32) + entering) :: shiftHalf ws (Word.high w)

/-- Moves a magnitude up by `k` halves. -/
def shiftHalves (m : Magnitude) (k : Nat) : Magnitude :=
  if m.isEmpty then []
  else List.replicate (k / 2) 0 ++ (if k % 2 = 1 then shiftHalf m 0 else m)

/-- The 32-bit halves of a magnitude, least significant first. -/
def halves (m : Magnitude) : List Word := m.flatMap fun w => [Word.low w, Word.high w]

/-- Adds the partial product by the half at position `k`. -/
def addPartial (a acc : Magnitude) (half : Word × Nat) : Magnitude :=
  if half.1 = 0 then acc else add acc (shiftHalves (mulHalf a half.1) half.2)

/-- The product of two magnitudes. -/
def mul (a b : Magnitude) : Magnitude := (halves b).zipIdx.foldl (addPartial a) []

/-! ## Values -/

theorem toNat_mulWith (m : Magnitude) {n : Word} (hn : n.toNat < 0x100000000) (carry : Word)
    (hc : carry.toNat < 0x100000000) :
    toNat (mulWith n m carry) = toNat m * n.toNat + carry.toNat := by
  induction m generalizing carry with
  | nil => simp [mulWith, toNat_ofWord]
  | cons w ws ih =>
    have hv := Word.mulCarry_value w hn hc
    rw [mulWith, toNat_cons, ih _ (Word.mulCarry_carry_lt w n carry), toNat_cons, Nat.add_mul,
      Nat.mul_assoc]
    omega

theorem toNat_mulHalf (m : Magnitude) {n : Word} (hn : n.toNat < 0x100000000) :
    toNat (mulHalf m n) = toNat m * n.toNat := by
  rw [mulHalf, toNat_trim, toNat_mulWith m hn 0 (by simp)]
  simp

theorem toNat_shiftHalf (m : Magnitude) (entering : Word) (h : entering.toNat < 0x100000000) :
    toNat (shiftHalf m entering) = 0x100000000 * toNat m + entering.toNat := by
  induction m generalizing entering with
  | nil => simp [shiftHalf, toNat_ofWord]
  | cons w ws ih =>
    have hw := w.toNat_lt
    rw [shiftHalf, toNat_cons, ih _ (Word.toNat_high_lt w), toNat_cons, UInt64.toNat_add,
      Word.toNat_shiftLeft_half, Word.toNat_high]
    omega

theorem toNat_replicate_zero (k : Nat) : toNat (List.replicate k 0) = 0 := by
  induction k with
  | zero => rfl
  | succ k ih => rw [List.replicate_succ, toNat_cons, ih]; rfl

theorem toNat_shiftHalves (m : Magnitude) (k : Nat) :
    toNat (shiftHalves m k) = toNat m <<< (32 * k) := by
  unfold shiftHalves
  split
  · simp_all
  · rw [toNat_append, toNat_replicate_zero, List.length_replicate, Nat.zero_add]
    split
    · have hk : 32 * k = 32 + 64 * (k / 2) := by omega
      rw [toNat_shiftHalf m 0 (by simp), UInt64.toNat_zero, Nat.add_zero, hk, Nat.shiftLeft_add,
        Nat.shiftLeft_eq (toNat m), Nat.mul_comm (toNat m)]
    · rw [show 64 * (k / 2) = 32 * k by omega]

/-- The number that a list of halves denotes, the first one at position `k`. -/
def halvesValue : List Word → Nat → Nat
  | [], _ => 0
  | h :: hs, k => h.toNat <<< (32 * k) + halvesValue hs (k + 1)

theorem halvesValue_halves (m : Magnitude) (k : Nat) :
    halvesValue (halves m) k = toNat m <<< (32 * k) := by
  induction m generalizing k with
  | nil => simp [halves, halvesValue]
  | cons w ws ih =>
    have hw := Word.toNat_low_add_high w
    show (Word.low w).toNat <<< _ + ((Word.high w).toNat <<< _ + halvesValue (halves ws) _) = _
    rw [ih, toNat_cons, ← hw, show 32 * (k + 1) = 32 + 32 * k by omega,
      show 32 * (k + 1 + 1) = 64 + 32 * k by omega, Nat.shiftLeft_add, Nat.shiftLeft_add]
    simp only [Nat.shiftLeft_eq, ← Nat.add_mul]
    congr 1
    omega

theorem toNat_addPartial (a acc : Magnitude) {half : Word} (hh : half.toNat < 0x100000000)
    (k : Nat) :
    toNat (addPartial a acc (half, k)) = toNat acc + (toNat a * half.toNat) <<< (32 * k) := by
  unfold addPartial
  split
  · simp_all
  · rw [toNat_add, toNat_shiftHalves, toNat_mulHalf a hh]

theorem toNat_foldl_addPartial (a : Magnitude) (hs : List Word) (k : Nat) (acc : Magnitude)
    (hh : ∀ h ∈ hs, h.toNat < 0x100000000) :
    toNat ((hs.zipIdx k).foldl (addPartial a) acc) =
      toNat acc + toNat a * halvesValue hs k := by
  induction hs generalizing k acc with
  | nil => simp [halvesValue]
  | cons h hs ih =>
    rw [List.zipIdx_cons, List.foldl_cons, ih _ _ fun x hx => hh x (List.mem_cons_of_mem _ hx),
      toNat_addPartial a acc (hh h List.mem_cons_self), halvesValue, Nat.mul_add, Nat.add_assoc,
      Nat.shiftLeft_eq, Nat.shiftLeft_eq, Nat.mul_assoc]

theorem halves_lt (m : Magnitude) : ∀ h ∈ halves m, h.toNat < 0x100000000 := by
  intro h hm
  simp only [halves, List.mem_flatMap, List.mem_cons, List.not_mem_nil, or_false] at hm
  obtain ⟨w, _, rfl | rfl⟩ := hm
  · exact Word.toNat_low_lt w
  · exact Word.toNat_high_lt w

theorem toNat_mul (a b : Magnitude) : toNat (mul a b) = toNat a * toNat b := by
  rw [mul, toNat_foldl_addPartial a _ 0 _ (halves_lt b), halvesValue_halves]
  simp

end Fractran.Magnitude
