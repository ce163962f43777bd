/-
  One step of a machine against the trajectory of its rules.

  `Takes` lists all that a step can do. A run tracks a trajectory when its value, its last index
  and its halted flag are those of the trajectory after as many steps (`Run.Tracks`). Every step
  keeps this (`Tracks.step`), and a step of a running machine ends the run only where the
  trajectory ends or the bound is reached (`Tracks.ended`).
-/
import Fractran.Machine.Basic
import Fractran.Proofs.Program

namespace Fractran

namespace Machine

/-- The steps that a machine can take from a run. -/
inductive Takes (m : Machine) (r : Run) : Step → Prop where
  /-- The run has halted before. -/
  | stay (h : r.halted = true) : Takes m r ⟨.ended .halted, r, []⟩
  /-- The bound allows no further value. -/
  | bound (h : r.halted = false) (hb : m.bound ≤ r.steps) :
      Takes m r ⟨.ended .boundReached, r, []⟩
  /-- The first value is the seed. -/
  | seed (h : r.halted = false) (hb : r.steps < m.bound) (h0 : r.steps = 0) :
      Takes m r ⟨.produced r.value.num, { r with steps := 1 }, []⟩
  /-- A fraction is applied. -/
  | applied (a : Program.Application) (h : r.halted = false) (hb : r.steps < m.bound)
      (h0 : 0 < r.steps) (ha : m.program.next? r.value = some a) :
      Takes m r ⟨.produced a.product.num, ⟨a.product, r.steps + 1, some a.index, false⟩,
        if m.verbose then [appliedNote (r.steps + 1) a] else []⟩
  /-- No fraction applies. -/
  | halt (h : r.halted = false) (hb : r.steps < m.bound) (h0 : 0 < r.steps)
      (hn : m.program.next? r.value = none) :
      Takes m r ⟨.ended .halted, { r with halted := true },
        if m.verbose then [haltedNote r.steps] else []⟩

theorem takes_step (m : Machine) (r : Run) : m.Takes r (m.step r) := by
  unfold step
  split
  · rename_i h
    exact .stay h
  · rename_i h
    rw [Bool.not_eq_true] at h
    split
    · rename_i hb
      exact .bound h hb
    · rename_i hb
      rw [Nat.not_le] at hb
      split
      · rename_i h0
        exact .seed h hb h0
      · rename_i h0
        have h0 := Nat.pos_of_ne_zero h0
        split
        · rename_i a ha
          exact .applied a h hb h0 ha
        · rename_i hn
          exact .halt h hb h0 hn

/-- A step that yields a value counts it and makes it the value of the run. -/
theorem step_produced {m : Machine} {r r' : Run} {v : Integer} {notes : List String}
    (hs : m.step r = ⟨.produced v, r', notes⟩) :
    r.steps < m.bound ∧ r'.steps = r.steps + 1 ∧ r'.halted = false ∧ r'.value.num = v := by
  have ht := hs ▸ m.takes_step r
  cases ht with
  | seed hh hb h0 => exact ⟨hb, by rw [h0], hh, rfl⟩
  | applied a hh hb h0 ha => exact ⟨hb, rfl, rfl, rfl⟩

/-- No step goes beyond the bound. -/
theorem step_steps_le {m : Machine} {r : Run} (h : r.steps ≤ m.bound) :
    (m.step r).run.steps ≤ m.bound := by
  cases hs : m.step r with
  | mk outcome run notes =>
    have ht := hs ▸ m.takes_step r
    cases ht with
    | stay => exact h
    | bound => exact h
    | seed _ hb h0 => simp only; omega
    | applied _ _ hb => exact hb
    | halt => exact h

/-- A run that is over stays over: further steps yield the same and change nothing. -/
theorem step_of_ended {m : Machine} {r r' : Run} {status : Status} {notes : List String}
    (hs : m.step r = ⟨.ended status, r', notes⟩) : m.step r' = ⟨.ended status, r', []⟩ := by
  have ht := hs ▸ m.takes_step r
  cases ht with
  | stay h => rw [step, if_pos h]
  | bound h hb => rw [step, if_neg (Bool.eq_false_iff.1 h), if_pos hb]
  | halt => rfl

/-- A machine is made from a positive bound and a program of positive fractions. -/
theorem make_eq_ok_iff {p : Program} {bound : Int} {level : Level} {m : Machine} :
    make p bound level = .ok m ↔
      0 < bound ∧ (∀ f ∈ p.fractions, 0 < f.num.toInt) ∧
        m = ⟨p, bound.toNat, level == .debug⟩ := by
  unfold make
  by_cases hb : bound ≤ 0
  · rw [if_pos hb]
    constructor
    · intro h; cases h
    · rintro ⟨hpos, -⟩; omega
  · rw [if_neg hb]
    cases hf : p.fractions.find? (!·.isPositive) with
    | some f =>
      have hmem := List.mem_of_find?_eq_some hf
      have hneg := List.find?_some hf
      constructor
      · intro h; cases h
      · rintro ⟨-, hall, -⟩
        rw [(Fraction.isPositive_iff f).2 (hall f hmem)] at hneg
        cases hneg
    | none =>
      have hall := List.find?_eq_none.1 hf
      constructor
      · intro h
        cases h
        refine ⟨by omega, ?_, rfl⟩
        intro f hmem
        simpa [Fraction.isPositive_iff] using hall f hmem
      · rintro ⟨-, -, rfl⟩
        rfl

/-- A machine has the program and the bound that it was made from, and they are good to run. -/
theorem make_spec {p : Program} (hp : p.Reduced) {bound : Int} {level : Level} {m : Machine}
    (h : make p bound level = .ok m) :
    m.program = p ∧ (m.bound : ℤ) = bound ∧ 0 < m.bound ∧ m.program.Valid := by
  obtain ⟨hpos, hpositive, rfl⟩ := make_eq_ok_iff.1 h
  refine ⟨rfl, Int.toNat_of_nonneg (by omega), by simp only; omega, ?_⟩
  exact fun f hf => ⟨hp f hf, hpositive f hf⟩

theorem start_eq_error {seed : Integer} (h : seed.toInt ≤ 0) :
    start seed = .error (.seedNotPositive seed) := by
  rw [start, if_neg]
  rw [Integer.isPositive_iff]
  omega

theorem start_eq_ok_iff {seed : Integer} {r : Run} :
    start seed = .ok r ↔ 0 < seed.toInt ∧ r = { value := .ofInteger seed } := by
  unfold start
  rw [← Integer.isPositive_iff]
  split_ifs with h
  · simp [h, eq_comm]
  · simp [h]

end Machine

/-! ## Tracking a trajectory -/

/-- The run is where the trajectory of `n` is after as many steps. The first step only yields the
    seed, so `steps` values come from `steps - 1` applications. -/
structure Run.Tracks (rules : Rules) (n : Nat) (r : Run) : Prop where
  value : ∃ x, rules.orbit n (r.steps - 1) = some x ∧ r.value.IsNat x
  last : r.last = rules.maker n (r.steps - 1)
  halted : r.halted = true → 0 < r.steps ∧ rules.orbit n r.steps = none

namespace Run.Tracks

theorem start {rules : Rules} {seed : Integer} (hc : seed.Canonical) {n : Nat}
    (hn : seed.toInt = n) : Run.Tracks rules n { value := .ofInteger seed } where
  value := ⟨n, rfl, seed, rfl, hc, hn⟩
  last := rfl
  halted := by intro h; cases h

/-- The trajectory one application further. -/
theorem orbit_steps {rules : Rules} {n : Nat} {r : Run} (h0 : 0 < r.steps) {x : Nat}
    (hx : rules.orbit n (r.steps - 1) = some x) : rules.orbit n r.steps = rules.next? x := by
  obtain ⟨k, hk⟩ := Nat.exists_eq_add_of_lt h0
  rw [Nat.zero_add] at hk
  rw [hk, Nat.add_sub_cancel] at hx
  rw [hk, Rules.orbit, hx, Option.bind_some]

theorem maker_steps {rules : Rules} {n : Nat} {r : Run} (h0 : 0 < r.steps) {x : Nat}
    (hx : rules.orbit n (r.steps - 1) = some x) : rules.maker n r.steps = rules.firing? x := by
  obtain ⟨k, hk⟩ := Nat.exists_eq_add_of_lt h0
  rw [Nat.zero_add] at hk
  rw [hk, Nat.add_sub_cancel] at hx
  rw [hk, Rules.maker, hx, Option.bind_some]

variable {m : Machine} {n : Nat} {r : Run}

theorem step (hm : m.program.Valid) (h : r.Tracks m.program.rules n) :
    (m.step r).run.Tracks m.program.rules n := by
  obtain ⟨x, hx, hval⟩ := h.value
  cases hs : m.step r with
  | mk outcome run notes =>
    have ht := hs ▸ m.takes_step r
    cases ht with
    | stay => exact h
    | bound => exact h
    | seed hh hb h0 =>
      rw [h0] at hx
      refine ⟨⟨x, hx, hval⟩, ?_, by rw [hh]; intro h'; cases h'⟩
      have hlast := h.last
      rw [h0] at hlast
      exact hlast
    | applied a hh hb h0 ha =>
      obtain ⟨hfire, -, y, hy, hprod⟩ := Program.next?_eq_some hm hval ha
      refine ⟨⟨y, ?_, hprod⟩, ?_, by intro h'; cases h'⟩
      · rw [Nat.add_sub_cancel, orbit_steps h0 hx, hy]
      · rw [Nat.add_sub_cancel, maker_steps h0 hx, hfire]
    | halt hh hb h0 hn =>
      refine ⟨⟨x, hx, hval⟩, h.last, ?_⟩
      intro _
      exact ⟨h0, (orbit_steps h0 hx).trans (Program.next?_eq_none hm hval hn)⟩

/-- A step of a running machine that yields no value has reached the bound, or the end of the
    trajectory. -/
theorem ended (hm : m.program.Valid) (hb : 0 < m.bound) (h : r.Tracks m.program.rules n)
    (hh : r.halted = false) {status : Status} {r' : Run} {notes : List String}
    (hs : m.step r = ⟨.ended status, r', notes⟩) :
    r'.steps = r.steps ∧ 0 < r.steps ∧
      (status = .boundReached ∧ m.bound ≤ r.steps ∧ r' = r ∨
        status = .halted ∧ r.steps < m.bound ∧ m.program.rules.orbit n r.steps = none ∧
          r' = { r with halted := true }) := by
  obtain ⟨x, hx, hval⟩ := h.value
  have ht := hs ▸ m.takes_step r
  cases ht with
  | stay h' => rw [hh] at h'; cases h'
  | bound _ hle => exact ⟨rfl, by omega, .inl ⟨rfl, hle, rfl⟩⟩
  | halt _ hlt h0 hn =>
    exact ⟨rfl, h0, .inr ⟨rfl, hlt,
      (orbit_steps h0 hx).trans (Program.next?_eq_none hm hval hn), rfl⟩⟩

/-- The value is a positive number of the trajectory. -/
theorem value_pos (hm : m.program.Valid) (hn : 0 < n) (h : r.Tracks m.program.rules n) :
    ∃ x, m.program.rules.orbit n (r.steps - 1) = some x ∧ r.value.IsNat x ∧ 0 < x := by
  obtain ⟨x, hx, hval⟩ := h.value
  exact ⟨x, hx, hval, Rules.orbit_pos hm.positive hn hx⟩

theorem last_eq_none_iff (h : r.Tracks m.program.rules n) : r.last = none ↔ r.steps ≤ 1 := by
  obtain ⟨x, hx, -⟩ := h.value
  rw [h.last]
  constructor
  · intro hnone
    apply Nat.le_of_not_lt
    intro hlt
    obtain ⟨i, hi, -⟩ := Rules.maker_eq_some (by omega) hx
    rw [hnone] at hi
    cases hi
  · intro hle
    rw [show r.steps - 1 = 0 by omega]
    rfl

theorem last_lt (h : r.Tracks m.program.rules n) {i : Nat} (hi : r.last = some i) :
    i < m.program.size := by
  obtain ⟨x, hx, -⟩ := h.value
  have h1 : 1 < r.steps := by
    rw [← Nat.not_le, ← h.last_eq_none_iff, hi]
    exact Option.some_ne_none i
  obtain ⟨j, hj, hlt⟩ := Rules.maker_eq_some (by omega) hx
  obtain rfl : i = j := Option.some.inj (hi.symm.trans (h.last.trans hj))
  rwa [Program.rules, List.length_map] at hlt

/-- Where a run has halted, no fraction makes an integer of the value. -/
theorem not_int_of_halted (hm : m.program.Valid) (h : r.Tracks m.program.rules n)
    (hh : r.halted = true) :
    ∀ f ∈ m.program.fractions, ∀ z : ℤ, r.value.toRat * f.toRat ≠ z := by
  obtain ⟨h0, hnone⟩ := h.halted hh
  obtain ⟨x, hx, hval⟩ := h.value
  rw [orbit_steps h0 hx, Rules.next?_eq_none_iff] at hnone
  intro f hf z hz
  apply hnone f.rule (List.mem_map_of_mem hf)
  rw [← Fraction.isInt_mul_iff hval (hm f hf),
    (Fraction.testsExact (Fraction.reduced_mul hval.reduced (hm f hf).1)).isInt,
    Fraction.toRat_mul hval.reduced (hm f hf).1]
  exact ⟨z, hz⟩

end Run.Tracks

end Fractran
