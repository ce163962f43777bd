/-
  The greatest common divisor of integers in registers.

  Euclid's loop divides and swaps until nothing remains. Two rounds halve the divisor
  (`two_mul_mod_lt`), so the loop ends after at most 128 rounds for each word of it
  (`euclid_gcd`). What it ends with is canonical, not negative, and the greatest common
  divisor of the two numbers (`greatest_gcd`).
-/
import Fractran.Proofs.Integer.Registers

namespace Fractran

/-! ## Euclid's loop -/

namespace Magnitude

/-- The loop from `a` and `b` ends with `g` after a number of rounds. A round puts `b` in the place
    of `a`, and the remainder, which is smaller, in the place of `b`. -/
inductive Euclid : Magnitude → Magnitude → Nat → Magnitude → Prop where
  | done {a b : Magnitude} (hb : b = []) : Euclid a b 0 a
  | round {a b g : Magnitude} {rounds : Nat} (hlt : toNat (mod a b) < toNat b)
      (hrest : Euclid b (mod a b) rounds g) : Euclid a b (rounds + 1) g

/-- A remainder is below half of the number it remains from. -/
theorem two_mul_mod_lt {n r : Nat} (hr : 0 < r) (hlt : r < n) : 2 * (n % r) < n := by
  have hmod : n % r < r := Nat.mod_lt n hr
  have hsum : n % r + r * (n / r) = n := Nat.mod_add_div n r
  have hquot : r * 1 ≤ r * (n / r) := Nat.mul_le_mul_left r (Nat.div_pos (Nat.le_of_lt hlt) hr)
  omega

theorem Euclid.rounds_le {a b g : Magnitude} {rounds k : Nat} (h : Euclid a b rounds g)
    (hk : toNat b < 1 <<< k) : rounds ≤ 2 * k := by
  -- Along `k`, two rounds at a time: the second remainder is below half of `b`.
  induction k generalizing a b rounds with
  | zero =>
    rw [Nat.shiftLeft_zero] at hk
    cases h with
    | done hb => exact Nat.le_refl 0
    | round hlt hrest => omega
  | succ k ih =>
    rw [Nat.shiftLeft_succ] at hk
    cases h with
    | done hb => exact Nat.zero_le _
    | round hlt hrest =>
      cases hrest with
      | done hr => omega
      | @round _ _ _ rounds hlt' hrest' =>
        have hhalf : 2 * toNat (mod b (mod a b)) < toNat b := by
          rw [toNat_mod b]
          exact two_mul_mod_lt (Nat.zero_lt_of_lt hlt') hlt
        have := ih hrest' (by omega)
        omega

theorem euclid_gcd {a b : Magnitude} (ha : Canonical a) (hb : Canonical b) :
    ∃ rounds, rounds ≤ 128 * b.length ∧ Euclid a b rounds (gcd a b) := by
  have hends : ∃ rounds, Euclid a b rounds (gcd a b) := by
    fun_induction gcd a b with
    | case1 a b hz => exact ⟨0, .done ((isZero_iff_eq_nil hb).1 hz)⟩
    | case2 a b hz ih =>
      obtain ⟨rounds, hrest⟩ := ih hb (canonical_mod b ha)
      rw [Bool.not_eq_true, isZero_eq_false_iff] at hz
      exact ⟨rounds + 1, .round (toNat_mod_lt a hz) hrest⟩
  obtain ⟨rounds, heuclid⟩ := hends
  have hle := heuclid.rounds_le (toNat_lt b)
  exact ⟨rounds, by omega, heuclid⟩

end Magnitude

namespace Integer

/-! ## The greatest common divisor -/

/-- `g` is the greatest common divisor of `a` and `b`. -/
structure Greatest (a b g : Integer) : Prop where
  canonical : g.Canonical
  nonneg : g.negative = false
  value : g.toInt = Nat.gcd a.toInt.natAbs b.toInt.natAbs
  divides : g.toInt ∣ a.toInt ∧ g.toInt ∣ b.toInt
  greatest : ∀ d : Int, d ∣ a.toInt → d ∣ b.toInt → d ∣ g.toInt
  zero : g = .zero ↔ a.toInt = 0 ∧ b.toInt = 0
  scaled : ∀ c : Integer, (a * c).gcd (b * c) = c.abs * g

/-- A common factor comes out of the greatest common divisor, word for word. -/
theorem gcd_mul_right (a b c : Integer) : (a * c).gcd (b * c) = c.abs * a.gcd b := by
  apply eq_of_toInt_eq (canonical_gcd (canonical_mul a c) (canonical_mul b c)) (canonical_mul _ _)
  rw [toInt_mul, toInt_gcd, toInt_gcd, toInt_mul, toInt_mul, toInt_abs, Int.gcd_mul_right,
    Int.natCast_mul, Int.mul_comm]

theorem gcd_eq_zero_iff {a b : Integer} (ha : a.Canonical) (hb : b.Canonical) :
    a.gcd b = .zero ↔ a.toInt = 0 ∧ b.toInt = 0 := by
  rw [eq_iff_toInt_eq (canonical_gcd ha hb) canonical_zero, toInt_gcd, toInt_zero,
    Int.natCast_eq_zero, Int.gcd_eq_zero_iff]

theorem greatest_gcd {a b : Integer} (ha : a.Canonical) (hb : b.Canonical) :
    Greatest a b (a.gcd b) where
  canonical := canonical_gcd ha hb
  nonneg := rfl
  value := toInt_gcd a b
  divides := by
    rw [toInt_gcd]
    exact ⟨Int.gcd_dvd_left _ _, Int.gcd_dvd_right _ _⟩
  greatest := by
    intro d hda hdb
    rw [toInt_gcd]
    exact Int.dvd_coe_gcd hda hdb
  zero := gcd_eq_zero_iff ha hb
  scaled := gcd_mul_right a b

namespace Registers

/-- Whatever is in the registers: the loop ends, and puts the greatest common divisor of two
    registers into the first, for any signs and with zeros. -/
theorem gcd_exact {regs : Registers} (h : Reachable regs) (target source : Nat) :
    let a := regs.get target
    let b := regs.get source
    ∃ g, Greatest a b g ∧
      regs.exec (.combine .gcd target source) = .ok (regs.set target g) ∧
      ∃ rounds, rounds ≤ 128 * b.magnitude.length ∧
        Magnitude.Euclid a.magnitude b.magnitude rounds g.magnitude := by
  intro a b
  have ha : a.Canonical := canonical_get h.canonical target
  have hb : b.Canonical := canonical_get h.canonical source
  exact ⟨a.gcd b, greatest_gcd ha hb, rfl, Magnitude.euclid_gcd ha.1 hb.1⟩

/-- `10 ^ 21` and `-35 * 10 ^ 24` have two words each; the first divides the second. -/
theorem gcd_exact_two_words :
    ∃ regs : Registers, Reachable regs ∧ (regs.get 0).toInt = 1000000000000000000000 ∧
      (regs.get 1).toInt = -35000000000000000000000000 ∧
      regs.exec (.combine .gcd 0 1) = .ok [regs.get 0, regs.get 1] := by
  have hreach : Reachable [⟨false, [0x35C9ADC5DEA00000, 0x36]⟩,
      ⟨true, [0xCD46047D03000000, 0x1CF389]⟩] :=
    reachable_of_numerals ["1000000000000000000000", "-35000000000000000000000000"]
      (by decide +kernel)
  obtain ⟨g, hgreatest, hgcd, -⟩ := gcd_exact hreach 0 1
  have hg : g = ⟨false, [0x35C9ADC5DEA00000, 0x36]⟩ :=
    eq_of_toInt_eq hgreatest.canonical (by decide) (hgreatest.value.trans (by decide +kernel))
  rw [hg] at hgcd
  exact ⟨_, hreach, by decide, by decide, hgcd⟩

end Registers

end Integer

end Fractran
