/-
  Division of integers in registers.

  The quotient is rounded toward zero and the remainder keeps the sign of the dividend
  (`division_tdiv_tmod`). A canonical divisor below `2 ^ 32` is divided by word halves and any
  larger one by the table of its doublings (`divMod_of_lt`, `divMod_of_le`); what comes out is
  the same division. Only a zero divisor is refused, and then nothing changes.
-/
import Fractran.Proofs.Integer.Registers

namespace Fractran

/-! ## The two ways to divide magnitudes -/

namespace Magnitude

theorem half?_singleton {w : Word} (h : w.toNat < 0x100000000) : half? [w] = some w := by
  have hhigh : Word.high w = 0 := by
    rw [← UInt64.toNat_inj, Word.toNat_high, UInt64.toNat_zero]
    omega
  rw [half?, if_pos hhigh]

theorem eq_singleton_of_lt {m : Magnitude} (hm : Canonical m) (h0 : 0 < toNat m)
    (h : toNat m < 0x10000000000000000) : ∃ w, m = [w] := by
  cases m with
  | nil => exact absurd h0 (Nat.lt_irrefl 0)
  | cons w ws =>
    rw [toNat_cons] at h
    have hws : toNat ws = 0 := by omega
    rw [(eq_nil_iff_toNat_eq_zero (canonical_tail hm)).2 hws]
    exact ⟨w, rfl⟩

/-- A divisor below `2 ^ 32` is one word and is divided by halves. -/
theorem divMod_of_lt (a : Magnitude) {n : Magnitude} (hn : Canonical n) (h0 : 0 < toNat n)
    (h : toNat n < 0x100000000) :
    ∃ w, n = [w] ∧ divMod a n = ((divHalf a w).1, ofWord (divHalf a w).2) := by
  obtain ⟨w, rfl⟩ := eq_singleton_of_lt hn h0 (by omega)
  have hw : w.toNat < 0x100000000 := by simpa using h
  refine ⟨w, rfl, ?_⟩
  rw [divMod, dif_neg (by rw [Bool.not_eq_true]; exact (isZero_eq_false_iff _).2 h0)]
  simp only [half?_singleton hw]

/-- Any larger divisor is divided by its doublings. -/
theorem divMod_of_le (a : Magnitude) {n : Magnitude} (h0 : 0 < toNat n)
    (h : 0x100000000 ≤ toNat n) : divMod a n = divLong a n h0 := by
  have hhalf : half? n = none := by
    cases hw : half? n with
    | none => rfl
    | some w =>
      obtain ⟨rfl, hlt⟩ := half?_eq_some hw
      rw [toNat_cons, toNat_nil] at h
      omega
  rw [divMod, dif_neg (by rw [Bool.not_eq_true]; exact (isZero_eq_false_iff _).2 h0)]
  simp only [hhalf]

end Magnitude

namespace Integer

/-! ## Quotient and remainder -/

/-- `q` is the quotient of `a` by `b` rounded toward zero, and `r` is what remains. -/
structure Division (a b q r : Integer) : Prop where
  canonical : q.Canonical ∧ r.Canonical
  quotient : q.toInt = a.toInt.tdiv b.toInt
  remainder : r.toInt = a.toInt - b.toInt * a.toInt.tdiv b.toInt
  recombine : a.toInt = q.toInt * b.toInt + r.toInt
  remainder_lt : r.toInt.natAbs < b.toInt.natAbs
  sign : r.toInt = 0 ∨ r.toInt.sign = a.toInt.sign

theorem sign_tmod_cases (a b : Int) : a.tmod b = 0 ∨ (a.tmod b).sign = a.sign := by
  by_cases hdvd : b ∣ a
  · exact .inl (Int.tmod_eq_zero_of_dvd hdvd)
  · right
    rw [Int.sign_tmod, if_neg hdvd]

theorem division_tdiv_tmod {a b : Integer} (ha : a.Canonical) (hb : b.toInt ≠ 0) :
    Division a b (a.tdiv b) (a.tmod b) where
  canonical := ⟨canonical_tdiv b ha, canonical_tmod b ha⟩
  quotient := toInt_tdiv a b
  remainder := by rw [toInt_tmod, Int.tmod_def]
  recombine := by rw [toInt_tdiv, toInt_tmod, Int.tdiv_mul_add_tmod]
  remainder_lt := by
    rw [toInt_tmod, Int.natAbs_tmod]
    exact Nat.mod_lt _ (Int.natAbs_pos.2 hb)
  sign := by
    rw [toInt_tmod]
    exact sign_tmod_cases a.toInt b.toInt

theorem div_eq_ok (a : Integer) {b : Integer} (hb : b.toInt ≠ 0) : a.div b = .ok (a.tdiv b) := by
  have hz : b.isZero = false := Bool.eq_false_iff.2 (mt (isZero_iff b).1 hb)
  simp [Integer.div, div?, hz]

theorem mod_eq_ok (a : Integer) {b : Integer} (hb : b.toInt ≠ 0) : a.mod b = .ok (a.tmod b) := by
  have hz : b.isZero = false := Bool.eq_false_iff.2 (mt (isZero_iff b).1 hb)
  simp [Integer.mod, mod?, hz]

namespace Registers

/-- Whatever is in the registers: dividing one by another, or by itself, fails iff the divisor is
    zero, and then no register changes. Otherwise the quotient or the remainder replaces the
    dividend. They are exact for any signs and sizes, by word halves for a divisor below `2 ^ 32`
    and by doublings for all others. -/
theorem division_exact {regs : Registers} (h : Reachable regs) (target source : Nat) :
    let a := regs.get target
    let b := regs.get source
    (∀ op e, op = .div ∨ op = .mod →
      (regs.exec (.combine op target source) = .error e ↔ b.toInt = 0 ∧ e = .divisionByZero) ∧
      (b.toInt = 0 → regs.step (.combine op target source) = regs)) ∧
    (b.toInt ≠ 0 → ∃ q r, Division a b q r ∧
      regs.exec (.combine .div target source) = .ok (regs.set target q) ∧
      regs.exec (.combine .mod target source) = .ok (regs.set target r) ∧
      (b.magnitude.toNat < 0x100000000 → ∃ w, b.magnitude = [w] ∧
        (q.magnitude, r.magnitude) = ((Magnitude.divHalf a.magnitude w).1,
          .ofWord (Magnitude.divHalf a.magnitude w).2)) ∧
      ∀ hlong : 0x100000000 ≤ b.magnitude.toNat,
        (q.magnitude, r.magnitude) = Magnitude.divLong a.magnitude b.magnitude (by omega)) := by
  intro a b
  have ha : a.Canonical := canonical_get h.canonical target
  have hb : b.Canonical := canonical_get h.canonical source
  constructor
  · intro op e hop
    have herror : regs.exec (.combine op target source) = .error e ↔
        b.toInt = 0 ∧ e = .divisionByZero := by
      rcases hop with rfl | rfl
      · exact (bind_pure_eq_error_iff _ _ _).trans (div_eq_error_iff a b e)
      · exact (bind_pure_eq_error_iff _ _ _).trans (mod_eq_error_iff a b e)
    refine ⟨herror, ?_⟩
    intro hzero
    rcases hop with rfl | rfl
    · exact step_of_exec_error ((exec_eq_error_iff _ _ _).2 (.div hzero))
    · exact step_of_exec_error ((exec_eq_error_iff _ _ _).2 (.mod hzero))
  · intro hne
    have hpos : 0 < b.magnitude.toNat := by
      rw [← natAbs_toInt]
      exact Int.natAbs_pos.2 hne
    refine ⟨a.tdiv b, a.tmod b, division_tdiv_tmod ha hne, ?_, ?_, ?_, ?_⟩
    · show (do let v ← a.div b; return regs.set target v) = _
      rw [div_eq_ok a hne]
      rfl
    · show (do let v ← a.mod b; return regs.set target v) = _
      rw [mod_eq_ok a hne]
      rfl
    · intro hshort
      exact Magnitude.divMod_of_lt a.magnitude hb.1 hpos hshort
    · intro hlong
      exact Magnitude.divMod_of_le a.magnitude hpos hlong

/-- Two registers of more than one word: `-(2 ^ 65 + 5)` by `2 ^ 64` is `-2`, and `-5` remains. -/
theorem division_exact_two_words :
    ∃ regs : Registers, Reachable regs ∧ (regs.get 0).toInt = -36893488147419103237 ∧
      (regs.get 1).toInt = 18446744073709551616 ∧
      ∃ q r, Division (regs.get 0) (regs.get 1) q r ∧ q.toInt = -2 ∧ r.toInt = -5 ∧
        regs.exec (.combine .div 0 1) = .ok [q, regs.get 1] ∧
        regs.exec (.combine .mod 0 1) = .ok [r, regs.get 1] := by
  have hread : Integer.read "-36893488147419103237" = .ok ⟨true, [5, 2]⟩ := by
    rw [Integer.read, show ofText? "-36893488147419103237" = some ⟨true, [5, 2]⟩ by decide +kernel]
  have hread' : Integer.read "18446744073709551616" = .ok ⟨false, [0, 1]⟩ := by
    rw [Integer.read, show ofText? "18446744073709551616" = some ⟨false, [0, 1]⟩ by decide +kernel]
  have hreach : Reachable [⟨true, [5, 2]⟩, ⟨false, [0, 1]⟩] := by
    apply Reachable.start
    intro a ha
    rcases List.mem_cons.1 ha with rfl | ha
    · exact .numeral hread
    · obtain rfl := List.mem_singleton.1 ha
      exact .numeral hread'
  obtain ⟨q, r, hdivision, hdiv, hmod, -⟩ := (division_exact hreach 0 1).2 (by decide)
  refine ⟨_, hreach, by decide, by decide, q, r, hdivision, ?_, ?_, hdiv, hmod⟩
  · exact hdivision.quotient
  · exact hdivision.remainder

end Registers

end Integer

end Fractran
