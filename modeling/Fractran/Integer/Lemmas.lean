/-
  Integers against the numbers that they denote.

  Main statements:
  - `toInt_add`, `toInt_sub`, `toInt_mul`, `toInt_tdiv`, `toInt_tmod`, `toInt_gcd`: each operation
    is the operation of the same name on the denoted numbers;
  - `canonical_add` and its companions: the operations keep integers canonical;
  - `eq_of_toInt_eq`: a canonical integer is determined by the number that it denotes.
-/
import Fractran.Integer
import Fractran.Magnitude.Canonical

namespace Fractran.Integer

/-! ## Values -/

theorem toInt_mk (negative : Bool) (m : Magnitude) :
    toInt ⟨negative, m⟩ = if negative then -(m.toNat : Int) else m.toNat := rfl

theorem toInt_ofMagnitude (negative : Bool) (m : Magnitude) :
    (ofMagnitude negative m).toInt = if negative then -(m.toNat : Int) else m.toNat := by
  cases negative with
  | false => rfl
  | true =>
    by_cases hz : m.isZero = true
    · simp [ofMagnitude, toInt_mk, hz, (Magnitude.isZero_iff m).1 hz]
    · simp [ofMagnitude, toInt_mk, hz]

theorem natAbs_toInt (a : Integer) : a.toInt.natAbs = a.magnitude.toNat := by
  unfold toInt
  split <;> omega

theorem toInt_abs (a : Integer) : a.abs.toInt = a.toInt.natAbs := by
  rw [natAbs_toInt]
  rfl

@[simp] theorem toInt_zero : zero.toInt = 0 := rfl

@[simp] theorem toInt_one : one.toInt = 1 := rfl

theorem toInt_neg (a : Integer) : (-a).toInt = -a.toInt := by
  show (ofMagnitude (!a.negative) a.magnitude).toInt = _
  rw [toInt_ofMagnitude, toInt]
  cases a.negative <;> simp

theorem toInt_add (a b : Integer) : (a + b).toInt = a.toInt + b.toInt := by
  show (add a b).toInt = _
  obtain ⟨s, x⟩ := a
  obtain ⟨t, y⟩ := b
  simp only [add]
  split
  · rename_i hs
    subst hs
    rw [toInt_ofMagnitude, Magnitude.toNat_add, toInt_mk, toInt_mk]
    cases s with
    | false => exact Int.natCast_add _ _
    | true => simp only [reduceIte]; omega
  · rename_i hs
    split
    · rename_i hlt
      rw [Magnitude.below_iff] at hlt
      rw [toInt_ofMagnitude, Magnitude.toNat_sub _ _ (by omega), toInt_mk, toInt_mk]
      cases s <;> cases t <;> simp_all <;> omega
    · rename_i hge
      rw [Bool.not_eq_true, Magnitude.below_eq_false_iff] at hge
      rw [toInt_ofMagnitude, Magnitude.toNat_sub _ _ hge, toInt_mk, toInt_mk]
      cases s <;> cases t <;> simp_all <;> omega

theorem toInt_sub (a b : Integer) : (a - b).toInt = a.toInt - b.toInt := by
  show (a + -b).toInt = _
  rw [toInt_add, toInt_neg]
  omega

theorem toInt_mul (a b : Integer) : (a * b).toInt = a.toInt * b.toInt := by
  show (mul a b).toInt = _
  obtain ⟨s, x⟩ := a
  obtain ⟨t, y⟩ := b
  rw [mul, toInt_ofMagnitude, Magnitude.toNat_mul, toInt_mk, toInt_mk]
  rw [Int.natCast_mul]
  cases s with
  | false =>
    cases t with
    | false => rfl
    | true => exact (Int.mul_neg _ _).symm
  | true =>
    cases t with
    | false => exact (Int.neg_mul _ _).symm
    | true => exact (Int.neg_mul_neg _ _).symm

theorem toInt_tdiv (a b : Integer) : (a.tdiv b).toInt = a.toInt.tdiv b.toInt := by
  obtain ⟨s, x⟩ := a
  obtain ⟨t, y⟩ := b
  rw [tdiv, toInt_ofMagnitude, Magnitude.toNat_div, toInt_mk, toInt_mk]
  cases s <;> cases t <;> simp

theorem toInt_tmod (a b : Integer) : (a.tmod b).toInt = a.toInt.tmod b.toInt := by
  obtain ⟨s, x⟩ := a
  obtain ⟨t, y⟩ := b
  rw [tmod, toInt_ofMagnitude, Magnitude.toNat_mod, toInt_mk, toInt_mk]
  cases s <;> cases t <;> simp [Int.tmod_eq_emod_of_nonneg]

theorem toInt_gcd (a b : Integer) : (a.gcd b).toInt = Int.gcd a.toInt b.toInt := by
  rw [gcd, toInt_mk, Magnitude.toNat_gcd, Int.gcd, natAbs_toInt, natAbs_toInt]
  rfl

theorem isZero_iff (a : Integer) : a.isZero = true ↔ a.toInt = 0 := by
  rw [isZero, Magnitude.isZero_iff, ← natAbs_toInt, Int.natAbs_eq_zero]

theorem toInt_ofInt64 (v : Int64) : (ofInt64 v).toInt = v.toInt := by
  rw [ofInt64, toInt_ofMagnitude, Magnitude.toNat_ofWord]
  have hlt : (v < 0) ↔ v.toInt < 0 := Int64.lt_iff_toInt_lt
  have hb := Int64.le_toInt v
  have hb' := Int64.toInt_lt v
  rw [Nat.toUInt64_eq, UInt64.toNat_ofNat_of_lt' (by rw [UInt64.size]; omega)]
  by_cases h : v < 0
  · have := hlt.1 h
    rw [decide_eq_true h, if_pos rfl]
    omega
  · have := mt hlt.2 h
    rw [decide_eq_false h, if_neg (by simp)]
    omega

/-! ## Canonical form -/

theorem canonical_ofMagnitude (negative : Bool) {m : Magnitude} (h : m.Canonical) :
    (ofMagnitude negative m).Canonical := by
  refine ⟨h, ?_⟩
  intro hm
  have hm : m = [] := hm
  simp [ofMagnitude, hm, Magnitude.isZero]

theorem canonical_zero : zero.Canonical := by decide

theorem canonical_one : one.Canonical := by decide

theorem canonical_neg {a : Integer} (h : a.Canonical) : (-a).Canonical :=
  canonical_ofMagnitude _ h.1

theorem canonical_abs {a : Integer} (h : a.Canonical) : a.abs.Canonical := ⟨h.1, fun _ => rfl⟩

theorem canonical_add {a b : Integer} (ha : a.Canonical) (hb : b.Canonical) :
    (a + b).Canonical := by
  show (add a b).Canonical
  unfold add
  split
  · exact canonical_ofMagnitude _ (Magnitude.canonical_add ha.1 hb.1)
  · split <;> exact canonical_ofMagnitude _ (Magnitude.canonical_sub _ _)

theorem canonical_sub {a b : Integer} (ha : a.Canonical) (hb : b.Canonical) :
    (a - b).Canonical := canonical_add ha (canonical_neg hb)

theorem canonical_mul (a b : Integer) : (a * b).Canonical :=
  canonical_ofMagnitude _ (Magnitude.canonical_mul _ _)

theorem canonical_tdiv {a : Integer} (b : Integer) (h : a.Canonical) : (a.tdiv b).Canonical :=
  canonical_ofMagnitude _ (Magnitude.canonical_div _ h.1)

theorem canonical_tmod {a : Integer} (b : Integer) (h : a.Canonical) : (a.tmod b).Canonical :=
  canonical_ofMagnitude _ (Magnitude.canonical_mod _ h.1)

theorem canonical_gcd {a b : Integer} (ha : a.Canonical) (hb : b.Canonical) :
    (a.gcd b).Canonical := ⟨Magnitude.canonical_gcd ha.1 hb.1, fun _ => rfl⟩

theorem canonical_ofInt64 (v : Int64) : (ofInt64 v).Canonical :=
  canonical_ofMagnitude _ (Magnitude.canonical_ofWord _)

theorem canonical_of_ofText? {text : String} {a : Integer} (h : ofText? text = some a) :
    a.Canonical := by
  unfold ofText? magnitudeOfText? at h
  split at h <;> split at h <;> simp at h <;> subst h <;>
    exact canonical_ofMagnitude _ (Magnitude.canonical_ofDigits _)

/-- Canonical integers of the same number are equal. -/
theorem eq_of_toInt_eq {a b : Integer} (ha : a.Canonical) (hb : b.Canonical)
    (h : a.toInt = b.toInt) : a = b := by
  have hm : a.magnitude = b.magnitude :=
    Magnitude.eq_of_toNat_eq ha.1 hb.1 (by rw [← natAbs_toInt, ← natAbs_toInt, h])
  obtain ⟨s, x⟩ := a
  obtain ⟨t, y⟩ := b
  simp only at hm
  subst hm
  by_cases hx : x = []
  · rw [show s = false from ha.2 hx, show t = false from hb.2 hx]
  · have hp : 0 < x.toNat := Magnitude.toNat_pos_of_canonical ha.1 hx
    rw [toInt_mk, toInt_mk] at h
    cases s with
    | false =>
      cases t with
      | false => rfl
      | true => simp only [Bool.false_eq_true, reduceIte] at h; omega
    | true =>
      cases t with
      | false => simp only [Bool.false_eq_true, reduceIte] at h; omega
      | true => rfl

end Fractran.Integer
