/-
  Fractions against the rationals that they denote.

  Main statements:
  - `reduced_reduce`, `toRat_reduce`: a quotient of two integers is put into lowest terms and
    keeps its value;
  - `reduced_mul`, `toRat_mul`: crosswise cancelling makes the product, already in lowest terms;
  - `num_toRat`, `den_toRat`, `isInt_iff`: a fraction in lowest terms is the rational's own
    numerator over its own denominator, so it is an integer exactly when it shows a one below.
-/
import Fractran.Fraction
import Fractran.Proofs.Integer.Comparison
import Mathlib.Data.Rat.Lemmas

namespace Fractran.Fraction

/-! ## Cancelling -/

theorem canonical_cancel {x y : Integer} (hx : x.Canonical) (hy : y.Canonical) :
    (cancel x y).1.Canonical ∧ (cancel x y).2.Canonical := by
  simp only [cancel]
  split
  · exact ⟨hx, hy⟩
  · exact ⟨Integer.canonical_tdiv _ hx, Integer.canonical_tdiv _ hy⟩

theorem toInt_cancel {x y : Integer} (hx : x.Canonical) (hy : y.Canonical) :
    (cancel x y).1.toInt = x.toInt.tdiv (Int.gcd x.toInt y.toInt) ∧
      (cancel x y).2.toInt = y.toInt.tdiv (Int.gcd x.toInt y.toInt) := by
  simp only [cancel]
  split
  · rename_i h1
    rw [Integer.isOne_iff (Integer.canonical_gcd hx hy), Integer.toInt_gcd] at h1
    rw [h1, Int.tdiv_one, Int.tdiv_one]
    exact ⟨rfl, rfl⟩
  · rw [Integer.toInt_tdiv, Integer.toInt_tdiv, Integer.toInt_gcd]
    exact ⟨rfl, rfl⟩

/-- What was cancelled is the greatest common divisor. -/
theorem cancel_mul_gcd {x y : Integer} (hx : x.Canonical) (hy : y.Canonical) :
    (cancel x y).1.toInt * Int.gcd x.toInt y.toInt = x.toInt ∧
      (cancel x y).2.toInt * Int.gcd x.toInt y.toInt = y.toInt := by
  obtain ⟨hp, hq⟩ := toInt_cancel hx hy
  rw [hp, hq]
  exact ⟨Int.tdiv_mul_cancel (Int.gcd_dvd_left _ _), Int.tdiv_mul_cancel (Int.gcd_dvd_right _ _)⟩

theorem coprime_cancel {x y : Integer} (hx : x.Canonical) (hy : y.Canonical) (h : y.toInt ≠ 0) :
    Nat.Coprime (cancel x y).1.toInt.natAbs (cancel x y).2.toInt.natAbs := by
  obtain ⟨hp, hq⟩ := toInt_cancel hx hy
  have hg : 0 < Int.gcd x.toInt y.toInt := Int.gcd_pos_of_ne_zero_right _ h
  rw [hp, hq, Int.natAbs_tdiv, Int.natAbs_tdiv, Int.natAbs_natCast]
  exact Nat.coprime_div_gcd_div_gcd hg

theorem natAbs_cancel_dvd {x y : Integer} (hx : x.Canonical) (hy : y.Canonical) :
    (cancel x y).1.toInt.natAbs ∣ x.toInt.natAbs ∧
      (cancel x y).2.toInt.natAbs ∣ y.toInt.natAbs := by
  obtain ⟨hp, hq⟩ := cancel_mul_gcd hx hy
  exact ⟨Int.natAbs_dvd_natAbs.2 ⟨_, hp.symm⟩, Int.natAbs_dvd_natAbs.2 ⟨_, hq.symm⟩⟩

/-- Cancelling against a positive number leaves a positive number. -/
theorem cancel_pos {x y : Integer} (hx : x.Canonical) (hy : y.Canonical) (h : 0 < y.toInt) :
    0 < (cancel x y).2.toInt := by
  have hq := (cancel_mul_gcd hx hy).2
  have hg : 0 < Int.gcd x.toInt y.toInt := Int.gcd_pos_of_ne_zero_right _ (by omega)
  rw [← hq] at h
  exact Int.pos_of_mul_pos_left h (by omega)

/-! ## Quotients -/

theorem reduced_ofInteger {n : Integer} (h : n.Canonical) : (ofInteger n).Reduced := by
  refine ⟨h, Integer.canonical_one, Int.one_pos, ?_⟩
  exact Nat.coprime_one_right _

theorem toRat_ofInteger (n : Integer) : (ofInteger n).toRat = n.toInt := by
  simp [toRat, ofInteger]

theorem toRat_cancel {x y : Integer} (hx : x.Canonical) (hy : y.Canonical) (h : y.toInt ≠ 0) :
    toRat ⟨(cancel x y).1, (cancel x y).2⟩ = x.toInt / y.toInt := by
  obtain ⟨hp, hq⟩ := cancel_mul_gcd hx hy
  have hg : ((Int.gcd x.toInt y.toInt : ℤ) : ℚ) ≠ 0 := by
    exact_mod_cast (Int.gcd_pos_of_ne_zero_right _ h).ne'
  have hp' : ((cancel x y).1.toInt : ℚ) * (Int.gcd x.toInt y.toInt : ℤ) = x.toInt := by
    exact_mod_cast hp
  have hq' : ((cancel x y).2.toInt : ℚ) * (Int.gcd x.toInt y.toInt : ℤ) = y.toInt := by
    exact_mod_cast hq
  rw [← hp', ← hq', mul_div_mul_right _ _ hg]
  rfl

/-- The numerator with the sign of the whole quotient. -/
def signedNum (n d : Integer) : Integer := if d.negative then -n else n

/-- Lowest terms over a positive denominator. -/
def lowest (n d : Integer) : Fraction :=
  if n.isZero then ofInteger n else ⟨(cancel n d).1, (cancel n d).2⟩

theorem reduce_eq_lowest (n d : Integer) : reduce n d = lowest (signedNum n d) d.abs := rfl

theorem canonical_signedNum {n : Integer} (h : n.Canonical) (d : Integer) :
    (signedNum n d).Canonical := by
  unfold signedNum
  split
  · exact Integer.canonical_neg h
  · exact h

/-- Moving the sign from the denominator to the numerator keeps the quotient. -/
theorem signedNum_div_abs (n d : Integer) :
    ((signedNum n d).toInt : ℚ) / d.abs.toInt = n.toInt / d.toInt := by
  unfold signedNum
  rw [Integer.toInt_abs]
  split
  · rename_i hs
    have hd : d.toInt ≤ 0 := by rw [Integer.toInt, if_pos hs]; omega
    rw [Integer.toInt_neg, show (d.toInt.natAbs : ℤ) = -d.toInt by omega]
    push_cast
    exact neg_div_neg_eq _ _
  · rename_i hs
    rw [Int.natAbs_of_nonneg (Integer.toInt_nonneg_of_not_negative (Bool.not_eq_true _ ▸ hs))]

theorem reduced_lowest {n d : Integer} (hn : n.Canonical) (hd : d.Canonical) (h : 0 < d.toInt) :
    (lowest n d).Reduced := by
  unfold lowest
  split
  · exact reduced_ofInteger hn
  · have hc := canonical_cancel hn hd
    exact ⟨hc.1, hc.2, cancel_pos hn hd h, coprime_cancel hn hd (by omega)⟩

theorem toRat_lowest {n d : Integer} (hn : n.Canonical) (hd : d.Canonical) (h : 0 < d.toInt) :
    (lowest n d).toRat = n.toInt / d.toInt := by
  unfold lowest
  split
  · rename_i hz
    rw [toRat_ofInteger, (Integer.isZero_iff _).1 hz]
    simp
  · exact toRat_cancel hn hd (by omega)

theorem make?_eq_none_iff (n d : Integer) : make? n d = none ↔ d.toInt = 0 := by
  unfold make?
  rw [← Integer.isZero_iff]
  split <;> simp_all

theorem make?_eq_some {n d : Integer} (h : d.toInt ≠ 0) : make? n d = some (reduce n d) := by
  unfold make?
  rw [if_neg (mt (Integer.isZero_iff d).1 h)]

theorem reduced_reduce {n d : Integer} (hn : n.Canonical) (hd : d.Canonical) (h : d.toInt ≠ 0) :
    (reduce n d).Reduced := by
  rw [reduce_eq_lowest]
  refine reduced_lowest (canonical_signedNum hn d) (Integer.canonical_abs hd) ?_
  rw [Integer.toInt_abs]
  omega

theorem toRat_reduce {n d : Integer} (hn : n.Canonical) (hd : d.Canonical) (h : d.toInt ≠ 0) :
    (reduce n d).toRat = n.toInt / d.toInt := by
  have hpos : 0 < d.abs.toInt := by
    rw [Integer.toInt_abs]
    omega
  rw [reduce_eq_lowest, toRat_lowest (canonical_signedNum hn d) (Integer.canonical_abs hd) hpos,
    signedNum_div_abs]

/-! ## Products -/

theorem mul_eq (f g : Fraction) : f * g =
    ⟨(cancel f.num g.den).1 * (cancel g.num f.den).1,
      if ((cancel f.num g.den).1 * (cancel g.num f.den).1).isZero then .one
      else (cancel g.num f.den).2 * (cancel f.num g.den).2⟩ := rfl

theorem reduced_mul {f g : Fraction} (hf : f.Reduced) (hg : g.Reduced) : (f * g).Reduced := by
  obtain ⟨ha, hb, hbpos, hab⟩ := hf
  obtain ⟨hc, hd, hdpos, hcd⟩ := hg
  rw [mul_eq]
  by_cases hz : ((cancel f.num g.den).1 * (cancel g.num f.den).1).isZero = true
  · rw [if_pos hz]
    exact reduced_ofInteger (Integer.canonical_mul _ _)
  · rw [if_neg hz]
    refine ⟨Integer.canonical_mul _ _, Integer.canonical_mul _ _, ?_, ?_⟩
    · show 0 < ((cancel g.num f.den).2 * (cancel f.num g.den).2).toInt
      rw [Integer.toInt_mul]
      exact Int.mul_pos (cancel_pos hc hb hbpos) (cancel_pos ha hd hdpos)
    · -- each numerator is coprime to the denominator it was cancelled against, and to its own
      obtain ⟨ha', hd'⟩ := natAbs_cancel_dvd ha hd
      obtain ⟨hc', hb'⟩ := natAbs_cancel_dvd hc hb
      simp only [Integer.toInt_mul, Int.natAbs_mul]
      refine Nat.Coprime.mul_left (Nat.Coprime.mul_right ?_ ?_) (Nat.Coprime.mul_right ?_ ?_)
      · exact Nat.Coprime.coprime_dvd_left ha' (Nat.Coprime.coprime_dvd_right hb' hab)
      · exact coprime_cancel ha hd (by omega)
      · exact coprime_cancel hc hb (by omega)
      · exact Nat.Coprime.coprime_dvd_left hc' (Nat.Coprime.coprime_dvd_right hd' hcd)

theorem toRat_mul {f g : Fraction} (hf : f.Reduced) (hg : g.Reduced) :
    (f * g).toRat = f.toRat * g.toRat := by
  obtain ⟨ha, hb, hbpos, -⟩ := hf
  obtain ⟨hc, hd, hdpos, -⟩ := hg
  have hcross : f.toRat * g.toRat =
      toRat ⟨(cancel f.num g.den).1, (cancel f.num g.den).2⟩ *
        toRat ⟨(cancel g.num f.den).1, (cancel g.num f.den).2⟩ := by
    rw [toRat_cancel ha hd (by omega), toRat_cancel hc hb (by omega), toRat, toRat,
      div_mul_div_comm, div_mul_div_comm, mul_comm (f.den.toInt : ℚ)]
  rw [hcross, mul_eq]
  by_cases hz : ((cancel f.num g.den).1 * (cancel g.num f.den).1).isZero = true
  · have h0 := (Integer.isZero_iff _).1 hz
    rw [Integer.toInt_mul] at h0
    rcases Int.mul_eq_zero.1 h0 with h0 | h0 <;> simp [toRat, Integer.toInt_mul, h0]
  · rw [if_neg hz]
    simp only [toRat, Integer.toInt_mul, Int.cast_mul]
    rw [div_mul_div_comm, mul_comm ((cancel g.num f.den).2.toInt : ℚ)]

/-! ## Lowest terms -/

theorem num_toRat {f : Fraction} (h : f.Reduced) : f.toRat.num = f.num.toInt :=
  Rat.num_div_eq_of_coprime h.2.2.1 h.2.2.2

theorem den_toRat {f : Fraction} (h : f.Reduced) : (f.toRat.den : ℤ) = f.den.toInt :=
  Rat.den_div_eq_of_coprime h.2.2.1 h.2.2.2

/-- In lowest terms a rational is written in one way. -/
theorem eq_of_toRat_eq {f g : Fraction} (hf : f.Reduced) (hg : g.Reduced)
    (h : f.toRat = g.toRat) : f = g := by
  have hnum : f.num.toInt = g.num.toInt := by rw [← num_toRat hf, ← num_toRat hg, h]
  have hden : f.den.toInt = g.den.toInt := by rw [← den_toRat hf, ← den_toRat hg, h]
  have hn := Integer.eq_of_toInt_eq hf.1 hg.1 hnum
  have hd := Integer.eq_of_toInt_eq hf.2.1 hg.2.1 hden
  exact congrArg₂ Fraction.mk hn hd

theorem isInt_iff {f : Fraction} (h : f.Reduced) : f.isInt = true ↔ f.toRat.den = 1 := by
  rw [isInt, Integer.isOne_iff h.2.1, ← den_toRat h]
  omega

/-- A fraction that is an integer is that integer over one. -/
theorem eq_ofInteger_of_isInt {f : Fraction} (h : f.isInt = true) : f = ofInteger f.num := by
  unfold isInt Integer.isOne at h
  rw [ofInteger, ← beq_iff_eq.1 h]

theorem isPositive_iff (f : Fraction) : f.isPositive = true ↔ 0 < f.num.toInt :=
  Integer.isPositive_iff f.num

end Fractran.Fraction
