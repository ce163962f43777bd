/-
  Quotients and remainders of magnitudes.

  A divisor of one word below `2 ^ 32` is divided word by word from the most significant end.
  Any other divisor goes by doubling: a table of its doublings is made, up to the dividend, and
  each that fits is taken off what is left, the largest first. Both ways are exact. A zero divisor
  gives quotient zero and the dividend as remainder, as `Nat` has it; callers that refuse it look
  before they divide.
-/
import Fractran.Magnitude.Product

namespace Fractran.Magnitude

/-- The words of the quotient by `n < 2 ^ 32`, and the remainder. -/
def divWith (n : Word) : Magnitude → Magnitude × Word
  | [] => ([], 0)
  | w :: ws =>
    let upper := divWith n ws
    let digit := Word.divCarry upper.2 w n
    (digit.1 :: upper.1, digit.2)

/-- Quotient and remainder by a divisor below `2 ^ 32`. -/
def divHalf (a : Magnitude) (n : Word) : Magnitude × Word :=
  let result := divWith n a
  (trim result.1, result.2)

/-- The doublings of `f` up to the dividend `a`, each with the same doubling of `g`. -/
def doublings (a f g : Magnitude) (hf : 0 < toNat f) : List (Magnitude × Magnitude) :=
  if below a f then []
  else (f, g) :: doublings a (double f) (double g) (by rw [toNat_double]; omega)
termination_by toNat a + 1 - toNat f
decreasing_by
  rename_i h
  rw [Bool.not_eq_true, below_eq_false_iff] at h
  rw [toNat_double]
  omega

/-- Takes a multiple of the divisor off the rest if it fits, and adds its factor to the
    quotient. -/
def takeOff (multiple state : Magnitude × Magnitude) : Magnitude × Magnitude :=
  if below state.2 multiple.1 then state
  else (add state.1 multiple.2, sub state.2 multiple.1)

/-- Quotient and remainder: the doublings of the divisor are taken off, the largest first. -/
def divLong (a n : Magnitude) (hn : 0 < toNat n) : Magnitude × Magnitude :=
  (doublings a n [1] hn).foldr takeOff ([], a)

/-- The only word of a magnitude, if it is below `2 ^ 32`. -/
def half? : Magnitude → Option Word
  | [w] => if Word.high w = 0 then some w else none
  | _ => none

/-- Quotient and remainder. -/
def divMod (a n : Magnitude) : Magnitude × Magnitude :=
  if hz : isZero n then ([], a)
  else match half? n with
    | some w => ((divHalf a w).1, ofWord (divHalf a w).2)
    | none => divLong a n ((isZero_eq_false_iff n).1 (Bool.not_eq_true _ ▸ hz))

/-- The quotient of two magnitudes. -/
def div (a n : Magnitude) : Magnitude := (divMod a n).1

/-- The remainder of two magnitudes. -/
def mod (a n : Magnitude) : Magnitude := (divMod a n).2

/-! ## Values -/

theorem divWith_rem_lt (a : Magnitude) {n : Word} (hn : 0 < n.toNat) :
    (divWith n a).2.toNat < n.toNat := by
  cases a with
  | nil => simpa [divWith] using hn
  | cons w ws => exact Word.divCarry_rem_lt _ w hn

theorem divWith_value (a : Magnitude) {n : Word} (h0 : 0 < n.toNat) (hn : n.toNat < 0x100000000) :
    toNat (divWith n a).1 * n.toNat + (divWith n a).2.toNat = toNat a := by
  induction a with
  | nil => simp [divWith]
  | cons w ws ih =>
    have hv := Word.divCarry_value w hn (divWith_rem_lt ws h0)
    simp only [divWith, toNat_cons]
    rw [Nat.add_mul, Nat.mul_assoc, ← ih]
    omega

theorem divHalf_value (a : Magnitude) {n : Word} (h0 : 0 < n.toNat) (hn : n.toNat < 0x100000000) :
    toNat (divHalf a n).1 = toNat a / n.toNat ∧ (divHalf a n).2.toNat = toNat a % n.toNat := by
  have hv := divWith_value a h0 hn
  have hr := divWith_rem_lt a h0
  simp only [divHalf, toNat_trim]
  rw [← hv, Nat.mul_comm, Nat.mul_add_div h0, Nat.mul_add_mod, Nat.div_eq_of_lt hr,
    Nat.mod_eq_of_lt hr]
  exact ⟨rfl, rfl⟩

/-- What is taken off is counted: the rest and the multiples in the quotient make up the same
    number before and after. A rest below twice the multiple comes below the multiple. -/
theorem takeOff_value {n : Nat} {f g q r : Magnitude} (hf : toNat f = toNat g * n)
    (hr : toNat r < 2 * toNat f) :
    toNat (takeOff (f, g) (q, r)).1 * n + toNat (takeOff (f, g) (q, r)).2 =
      toNat q * n + toNat r ∧ toNat (takeOff (f, g) (q, r)).2 < toNat f := by
  unfold takeOff
  split
  · rename_i hlt
    exact ⟨rfl, (below_iff r f).1 hlt⟩
  · rename_i hge
    rw [Bool.not_eq_true, below_eq_false_iff] at hge
    simp only at hge ⊢
    rw [toNat_add, toNat_sub r f hge, Nat.add_mul, ← hf]
    omega

/-- Taking off all doublings of `f` leaves a rest below `f`. -/
theorem foldr_takeOff_value {n : Nat} (a f g : Magnitude) (hf : 0 < toNat f)
    (hfg : toNat f = toNat g * n) :
    toNat ((doublings a f g hf).foldr takeOff ([], a)).1 * n +
      toNat ((doublings a f g hf).foldr takeOff ([], a)).2 = toNat a ∧
    toNat ((doublings a f g hf).foldr takeOff ([], a)).2 < toNat f := by
  -- Along the table: the doublings above `f` leave a rest below twice `f`.
  fun_induction doublings a f g hf with
  | case1 f g hf hlt => simpa using (below_iff a f).1 hlt
  | case2 f g hf hge ih =>
    have hdouble : toNat (double f) = toNat (double g) * n := by
      rw [toNat_double, toNat_double, hfg, Nat.mul_assoc]
    obtain ⟨hvalue, hrest⟩ := ih hdouble
    rw [toNat_double] at hrest
    obtain ⟨hkept, hlt⟩ := takeOff_value (q := (List.foldr takeOff _ _).1) hfg hrest
    rw [List.foldr_cons]
    exact ⟨hkept.trans hvalue, hlt⟩

theorem divLong_value (a n : Magnitude) (hn : 0 < toNat n) :
    toNat (divLong a n hn).1 = toNat a / toNat n ∧
      toNat (divLong a n hn).2 = toNat a % toNat n := by
  have hone : toNat n = toNat [1] * toNat n := by simp
  obtain ⟨hvalue, hrest⟩ := foldr_takeOff_value a n [1] hn hone
  rw [← divLong] at hvalue hrest
  rw [Nat.mul_comm, Nat.add_comm] at hvalue
  obtain ⟨hq, hr⟩ := (Nat.div_mod_unique hn).2 ⟨hvalue, hrest⟩
  exact ⟨hq.symm, hr.symm⟩

theorem half?_eq_some {n : Magnitude} {w : Word} (h : half? n = some w) :
    n = [w] ∧ w.toNat < 0x100000000 := by
  unfold half? at h
  split at h
  · rename_i v
    split at h
    · rename_i hv
      obtain rfl := Option.some.inj h
      have hz := congrArg UInt64.toNat hv
      rw [Word.toNat_high, UInt64.toNat_zero] at hz
      exact ⟨rfl, by omega⟩
    · cases h
  · cases h

theorem divMod_value (a n : Magnitude) :
    toNat (divMod a n).1 = toNat a / toNat n ∧ toNat (divMod a n).2 = toNat a % toNat n := by
  unfold divMod
  split
  · rename_i hz
    simp [(isZero_iff n).1 hz]
  · rename_i hz
    rw [Bool.not_eq_true, isZero_eq_false_iff] at hz
    split
    · rename_i w h
      obtain ⟨rfl, hw⟩ := half?_eq_some h
      have hv : toNat [w] = w.toNat := by simp
      rw [hv] at hz ⊢
      rw [toNat_ofWord]
      exact divHalf_value a hz hw
    · exact divLong_value a n hz

theorem toNat_div (a n : Magnitude) : toNat (div a n) = toNat a / toNat n := (divMod_value a n).1

theorem toNat_mod (a n : Magnitude) : toNat (mod a n) = toNat a % toNat n := (divMod_value a n).2

end Fractran.Magnitude
