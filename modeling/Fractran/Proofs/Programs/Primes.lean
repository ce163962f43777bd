/-
  A program that makes the powers of two with prime exponents.

  The program tries the numbers from two on. It divides a number `n` by `n - 1`, `n - 2` and so on
  until the division is exact, and then goes on to `n + 1`. Between the two it leaves `2^n`, and
  `7^(d - 1)` if the divisor was `d`; so there is a power of two exactly if the divisor was one.

  While `n` is divided its parts stand at `5` (what is left) and `2` (what is taken away), the
  parts of the divisor at `7` and `3`. A place of the program is one of the other primes.

  Main statements:
  - `trial_remainder`: a division ends with the remainder at `3`;
  - `iterate_power`: a power of two is followed by the one with the next prime as its exponent;
  - `run_generates_primes`: the exponents are the primes, on the trajectory and in every run.
-/
import Fractran.Proofs.Exponents
import Fractran.Proofs.Machine.Bound
import Fractran.Proofs.Source.Print
import Mathlib.NumberTheory.PrimeCounting

namespace Fractran.Primes

open Exponents

/-! ## The chart -/

/-- The loops of the program. The free one takes a single step for each turn; the others take two
    and have a place in between. -/
inductive Place where
  | free
  | restore
  | restoring
  | divide
  | dividing
  | refill
  | refilling

def layout : Layout Place where
  larger := [11, 13, 17, 19, 23, 29]
  letters
    | .free => []
    | .restore => [11]
    | .restoring => [29]
    | .divide => [13]
    | .dividing => [17]
    | .refill => [19]
    | .refilling => [23]

/-- The fractions by their primes. -/
def moves : List Move :=
  [⟨[17], [7, 13]⟩, ⟨[2, 3, 13], [5, 17]⟩, ⟨[19], [3, 17]⟩, ⟨[23], [2, 19]⟩, ⟨[29], [3, 11]⟩,
    ⟨[7, 11], [29]⟩, ⟨[5, 19], [23]⟩, ⟨[7, 11], [19]⟩, ⟨[], [17]⟩, ⟨[11], [13]⟩, ⟨[13], [11]⟩,
    ⟨[3, 5], [2, 7]⟩, ⟨[3, 5], [2]⟩, ⟨[5, 11], []⟩]

/-- What the program does next. -/
def step : State Place → State Place
  | ⟨.free, a + 1, b, c, d + 1⟩ => ⟨.free, a, b + 1, c + 1, d⟩
  | ⟨.free, a + 1, b, c, 0⟩ => ⟨.free, a, b + 1, c + 1, 0⟩
  | ⟨.free, 0, b, c, d⟩ => ⟨.restore, 0, b, c + 1, d⟩
  | ⟨.restore, a, b + 1, c, d⟩ => ⟨.restoring, a, b, c, d⟩
  | ⟨.restore, a, 0, c, d⟩ => ⟨.divide, a, 0, c, d⟩
  | ⟨.restoring, a, b, c, d⟩ => ⟨.restore, a, b, c, d + 1⟩
  | ⟨.divide, a, b, c, d + 1⟩ => ⟨.dividing, a, b, c, d⟩
  | ⟨.divide, a, b, c, 0⟩ => ⟨.restore, a, b, c, 0⟩
  | ⟨.dividing, a, b, c + 1, d⟩ => ⟨.divide, a + 1, b + 1, c, d⟩
  | ⟨.dividing, a, b + 1, 0, d⟩ => ⟨.refill, a, b, 0, d⟩
  | ⟨.dividing, a, 0, 0, d⟩ => ⟨.free, a, 0, 0, d⟩
  | ⟨.refill, a + 1, b, c, d⟩ => ⟨.refilling, a, b, c, d⟩
  | ⟨.refill, 0, b, c, d⟩ => ⟨.restore, 0, b, c, d + 1⟩
  | ⟨.refilling, a, b, c, d⟩ => ⟨.refill, a, b, c + 1, d⟩

theorem base_layout : Base layout.base := ⟨by decide, by decide⟩

theorem next?_exponents (s : State Place) :
    next? layout.base moves (layout.exponents s) = some (layout.exponents (step s)) := by
  fun_cases step s
  -- `15/14` fails for want of a two, but only after its seven has been looked at
  case case3 b c d => cases d <;> rfl
  all_goals rfl

theorem charts_step :
    Charts (fun s => some (step s)) layout.value (moves.map (Move.rule layout.base)) :=
  layout.charts base_layout next?_exponents

/-! ## Powers of two -/

/-- The state of a power of two. -/
def power (n : Nat) : State Place := ⟨.free, n, 0, 0, 0⟩

/-- The number of the state has another prime than two. -/
def Quiet (s : State Place) : Prop :=
  (layout.letters s.place).isEmpty = false ∨ s.three ≠ 0 ∨ s.five ≠ 0 ∨ s.seven ≠ 0

theorem value_power (n : Nat) : layout.value (power n) = 2 ^ n := by
  simp [power, Layout.value, Layout.base, Layout.exponents, layout, value, exponents]

theorem value_eq_two_pow_iff {s : State Place} {n : Nat} :
    layout.value s = 2 ^ n ↔ s = power n := by
  constructor
  · intro h
    rw [← value_power] at h
    have hexponents := value_inj base_layout (layout.length_exponents s)
      (layout.length_exponents (power n)) h
    obtain ⟨place, a, b, c, d⟩ := s
    cases place with
    | free => simpa [Layout.exponents, layout, power, exponents] using hexponents
    | _ => simp [Layout.exponents, layout, power, exponents] at hexponents
  · rintro rfl
    exact value_power n

theorem not_quiet_power (n : Nat) : ¬ Quiet (power n) := by simp [Quiet, power, layout]

/-- The program comes from one state to another, and to no power of two. -/
def Passes (s s' : State Place) : Prop := ∃ k, Leads (fun s => some (step s)) Quiet k s s'

namespace Passes

theorem refl (s : State Place) : Passes s s := ⟨0, .refl s⟩

theorem step {s s' : State Place} (hq : Quiet (step s)) (h : Passes (step s) s') :
    Passes s s' := by
  obtain ⟨k, hk⟩ := h
  exact ⟨k + 1, .step rfl hq hk⟩

theorem trans {s s₁ s' : State Place} (h : Passes s s₁) (h' : Passes s₁ s') : Passes s s' := by
  obtain ⟨j, hj⟩ := h
  obtain ⟨k, hk⟩ := h'
  exact ⟨j + k, hj.trans hk⟩

end Passes

/-! ## The loops -/

/-- Part of the divisor is subtracted from what is left. -/
theorem subtracts (a b c d j : Nat) :
    Passes ⟨.divide, a, b, c + j, d + j⟩ ⟨.divide, a + j, b + j, c, d⟩ := by
  induction j generalizing a b with
  | zero => exact .refl _
  | succ j ih =>
    have hrest := ih (a + 1) (b + 1)
    rw [Nat.add_right_comm a, Nat.add_right_comm b] at hrest
    exact .step (.inl rfl) (.step (.inl rfl) hrest)

/-- The divisor is put together again, for the next division. -/
theorem restores (a b c d : Nat) :
    Passes ⟨.restore, a, b, c, d⟩ ⟨.divide, a, 0, c, d + b⟩ := by
  induction b generalizing d with
  | zero => exact .step (.inl rfl) (.refl _)
  | succ b ih =>
    have hrest := ih (d + 1)
    rw [Nat.add_right_comm] at hrest
    exact .step (.inl rfl) (.step (.inl rfl) hrest)

/-- The number is put together again, to be divided by something smaller. -/
theorem refills (a b c d : Nat) :
    Passes ⟨.refill, a, b, c, d⟩ ⟨.restore, 0, b, c + a, d + 1⟩ := by
  induction a generalizing c with
  | zero => exact .step (.inl rfl) (.refl _)
  | succ a ih =>
    have hrest := ih (c + 1)
    rw [Nat.add_right_comm] at hrest
    exact .step (.inl rfl) (.step (.inl rfl) hrest)

/-- The number is copied to `3` and `5`, and the divisor is dropped. -/
theorem empties {a d : Nat} (h : d ≤ a) (b c : Nat) :
    Passes ⟨.free, a, b, c, d⟩ ⟨.free, 0, b + a, c + a, 0⟩ := by
  induction a generalizing b c d with
  | zero =>
    obtain rfl := Nat.le_zero.1 h
    exact .refl _
  | succ a ih =>
    have hrest := ih (show d - 1 ≤ a by omega) (b + 1) (c + 1)
    rw [Nat.add_right_comm b, Nat.add_right_comm c] at hrest
    cases d <;> exact .step (.inr (.inl (Nat.succ_ne_zero b))) hrest

/-! ## Trial division -/

/-- The number `n` is about to be divided by `d`. -/
def trial (n d : Nat) : State Place := ⟨.divide, 0, 0, n, d⟩

theorem divides_once (a c d : Nat) :
    Passes ⟨.divide, a, 0, c + d, d⟩ ⟨.divide, a + d, 0, c, d⟩ := by
  have hsubtracts := subtracts a 0 c 0 d
  have hrestores := restores (a + d) d c 0
  rw [Nat.zero_add] at hsubtracts hrestores
  exact hsubtracts.trans (.step (.inl rfl) hrestores)

theorem divides (a d q r : Nat) :
    Passes ⟨.divide, a, 0, q * d + r, d⟩ ⟨.divide, a + q * d, 0, r, d⟩ := by
  induction q generalizing a with
  | zero =>
    rw [Nat.zero_mul, Nat.zero_add]
    exact .refl _
  | succ q ih =>
    have hdivides := (divides_once a (q * d + r) d).trans (ih (a + d))
    rwa [Nat.add_right_comm, ← Nat.succ_mul, Nat.add_assoc a, Nat.add_comm d,
      ← Nat.succ_mul] at hdivides

/-- The division ends with the remainder at three. -/
theorem trial_remainder (n d : Nat) :
    Passes (trial n (d + 1)) ⟨.dividing, n, n % (d + 1), 0, d - n % (d + 1)⟩ := by
  have hlt : n % (d + 1) < d + 1 := Nat.mod_lt n (Nat.succ_pos d)
  have hn : n / (d + 1) * (d + 1) + n % (d + 1) = n := Nat.div_add_mod' n (d + 1)
  have hdivides := divides 0 (d + 1) (n / (d + 1)) (n % (d + 1))
  have hrest := subtracts (n / (d + 1) * (d + 1)) 0 0 (d - n % (d + 1) + 1) (n % (d + 1))
  rw [show d - n % (d + 1) + 1 + n % (d + 1) = d + 1 by omega, Nat.zero_add, hn] at hrest
  rw [Nat.zero_add, hn] at hdivides
  exact (hdivides.trans hrest).trans (.step (.inl rfl) (.refl _))

/-- If the divisor does not divide, the next smaller one is tried. -/
theorem trial_of_not_dvd {n d : Nat} (h : ¬ d + 1 ∣ n) :
    Passes (trial n (d + 1)) (trial n d) := by
  have hlt : n % (d + 1) < d + 1 := Nat.mod_lt n (Nat.succ_pos d)
  obtain ⟨r, hr⟩ := Nat.exists_eq_succ_of_ne_zero (mt Nat.dvd_of_mod_eq_zero h)
  have hremainder := trial_remainder n d
  rw [hr] at hremainder hlt
  have hrefills := refills n r 0 (d - (r + 1))
  have hrestores := restores 0 r n (d - (r + 1) + 1)
  rw [Nat.zero_add] at hrefills
  rw [show d - (r + 1) + 1 + r = d by omega] at hrestores
  exact hremainder.trans (.step (.inl rfl) (hrefills.trans hrestores))

theorem trial_of_dvd {n d : Nat} (h : d + 1 ∣ n) :
    Passes (trial n (d + 1)) ⟨.dividing, n, 0, 0, d⟩ := by
  have hremainder := trial_remainder n d
  rwa [Nat.mod_eq_zero_of_dvd h] at hremainder

/-- After a number the next one is tried, first with the number itself. -/
theorem advances {n d : Nat} (h : d ≤ n) : Passes ⟨.free, n, 0, 0, d⟩ (trial (n + 1) n) := by
  have hempties := empties h 0 0
  have hrestores := restores 0 n (n + 1) 0
  rw [Nat.zero_add] at hempties hrestores
  exact hempties.trans (.step (.inl rfl) hrestores)

/-- A number with a proper divisor among those still to be tried is left without a power of two. -/
theorem trial_of_proper_dvd {n d e : Nat} (hdn : d ≤ n) (he : 1 < e) (hed : e ≤ d) (h : e ∣ n) :
    Passes (trial n d) (trial (n + 1) n) := by
  induction d with
  | zero => omega
  | succ d ih =>
    by_cases hdvd : d + 1 ∣ n
    · have hd : d ≠ 0 := by omega
      exact (trial_of_dvd hdvd).trans (.step (.inr (.inr (.inr hd))) (advances (by omega)))
    · have hne : e ≠ d + 1 := fun heq => hdvd (heq ▸ h)
      exact (trial_of_not_dvd hdvd).trans (ih (by omega) (by omega))

/-- If no larger divisor is left, the number is divided by one. -/
theorem trial_of_no_dvd {n d : Nat} (h : ∀ e, 1 < e → e ≤ d + 1 → ¬ e ∣ n) :
    Passes (trial n (d + 1)) ⟨.dividing, n, 0, 0, 0⟩ := by
  induction d with
  | zero => exact trial_of_dvd (one_dvd n)
  | succ d ih =>
    have hnot : ¬ d + 1 + 1 ∣ n := h (d + 2) (by omega) (by omega)
    exact (trial_of_not_dvd hnot).trans (ih fun e he hed => h e he (by omega))

/-- Numbers that are not prime are passed over. -/
theorem trial_of_gap {n m : Nat} (hn : 0 < n) (hnm : n + 1 ≤ m)
    (hgap : ∀ k, n < k → k < m → ¬ k.Prime) : Passes (trial (n + 1) n) (trial m (m - 1)) := by
  induction m, hnm using Nat.le_induction with
  | base => exact .refl _
  | succ m hnm ih =>
    obtain ⟨e, hdvd, he, hem⟩ := Nat.exists_dvd_of_not_prime2 (by omega) (hgap m hnm (by omega))
    have hm := trial_of_proper_dvd (Nat.sub_le m 1) he (by omega) hdvd
    exact (ih fun k hk hkm => hgap k hk (by omega)).trans hm

/-- From a power of two the program comes to the one with the next prime as its exponent, and to
    no other before. -/
theorem iterate_power {n p : Nat} (hn : 0 < n) (hnp : n < p) (hp : p.Prime)
    (hgap : ∀ k, n < k → k < p → ¬ k.Prime) :
    ∃ k, step^[k + 1] (power n) = power p ∧ ∀ j, j < k → Quiet (step^[j + 1] (power n)) := by
  obtain ⟨d, rfl⟩ : ∃ d, p = d + 2 := ⟨p - 2, by omega⟩
  have hlast : Passes (trial (d + 2) (d + 1)) ⟨.dividing, d + 2, 0, 0, 0⟩ := by
    apply trial_of_no_dvd
    intro e he hed hdvd
    rcases (Nat.dvd_prime hp).1 hdvd with rfl | rfl <;> omega
  obtain ⟨k, hk⟩ := ((advances (Nat.zero_le n)).trans (trial_of_gap hn hnp hgap)).trans hlast
  obtain ⟨hend, hquiet⟩ := hk.iterate
  refine ⟨k, ?_, hquiet⟩
  rw [Function.iterate_succ_apply', power, hend]
  rfl

/-! ## The whole trajectory -/

/-- The exponent of two at the start, and then the primes. -/
noncomputable def exponent : Nat → Nat
  | 0 => 1
  | i + 1 => Nat.nth Nat.Prime i

theorem exponent_pos (i : Nat) : 0 < exponent i := by
  cases i with
  | zero => exact Nat.one_pos
  | succ i => exact (Nat.prime_nth_prime i).pos

theorem exponent_lt_succ (i : Nat) : exponent i < exponent (i + 1) := by
  cases i with
  | zero => exact (Nat.prime_nth_prime 0).one_lt
  | succ i => exact Nat.nth_strictMono Nat.infinite_setOfPred_prime (Nat.lt_succ_self i)

theorem not_prime_of_exponent_lt {i k : Nat} (hlow : exponent i < k)
    (hhigh : k < exponent (i + 1)) : ¬ k.Prime := by
  intro hk
  have hmono := Nat.nth_strictMono Nat.infinite_setOfPred_prime
  rw [← Nat.nth_count hk] at hlow hhigh
  have hlt : Nat.count Nat.Prime k < i := hmono.lt_iff_lt.1 hhigh
  cases i with
  | zero => omega
  | succ i =>
    have hgt : i < Nat.count Nat.Prime k := hmono.lt_iff_lt.1 hlow
    omega

/-- Every time lies in an interval between two times that `t` counts off. -/
theorem exists_interval {t : Nat → Nat} (h0 : t 0 = 0) (ht : StrictMono t) (k : Nat) :
    ∃ i, t i ≤ k ∧ k < t (i + 1) := by
  have hstep : ∀ i, t i < t (i + 1) := fun i => ht (Nat.lt_succ_self i)
  induction k with
  | zero =>
    have hfirst := hstep 0
    exact ⟨0, by omega, by omega⟩
  | succ k ih =>
    obtain ⟨i, hle, hlt⟩ := ih
    have hnext := hstep (i + 1)
    rcases Nat.lt_or_eq_of_le (Nat.succ_le_of_lt hlt) with hlt | heq
    · exact ⟨i, by omega, hlt⟩
    · exact ⟨i + 1, by omega, by omega⟩

/-- The times of the powers of two. -/
theorem exists_times :
    ∃ t : Nat → Nat, t 0 = 0 ∧ StrictMono t ∧ (∀ i, step^[t i] (power 1) = power (exponent i)) ∧
      ∀ k, Quiet (step^[k] (power 1)) ∨ ∃ i, k = t i := by
  have hgap : ∀ i, ∃ k, step^[k + 1] (power (exponent i)) = power (exponent (i + 1)) ∧
      ∀ j, j < k → Quiet (step^[j + 1] (power (exponent i))) := fun i =>
    iterate_power (exponent_pos i) (exponent_lt_succ i) (Nat.prime_nth_prime i)
      fun _ hlow hhigh => not_prime_of_exponent_lt hlow hhigh
  choose gap hpower hquiet using hgap
  -- a gap is what lies between two powers, so one step more leads from each to the next
  let t : Nat → Nat := fun i => ∑ j ∈ Finset.range i, (gap j + 1)
  have hsucc : ∀ i, t (i + 1) = gap i + 1 + t i := by
    intro i
    simp only [t]
    rw [Finset.sum_range_succ, Nat.add_comm]
  have hmono : StrictMono t := strictMono_nat_of_lt_succ fun i => by rw [hsucc]; omega
  have hstate : ∀ i, step^[t i] (power 1) = power (exponent i) := by
    intro i
    induction i with
    | zero => rfl
    | succ i ih => rw [hsucc, Function.iterate_add_apply, ih, hpower]
  refine ⟨t, rfl, hmono, hstate, ?_⟩
  intro k
  obtain ⟨i, hle, hlt⟩ := exists_interval rfl hmono k
  rcases Nat.eq_or_lt_of_le hle with heq | hlt'
  · exact .inr ⟨i, heq.symm⟩
  · obtain ⟨j, rfl⟩ : ∃ j, k = j + 1 + t i := ⟨k - t i - 1, by omega⟩
    rw [Function.iterate_add_apply, hstate]
    exact .inl (hquiet i j (by rw [hsucc] at hlt; omega))

/-- The number after `k` steps from two. -/
def number (k : Nat) : Nat := layout.value (step^[k] (power 1))

/-- After the start the powers of two are those with prime exponents, in increasing order. -/
theorem exists_prime_times :
    ∃ t : Nat → Nat, StrictMono t ∧ (∀ i, 0 < t i ∧ number (t i) = 2 ^ Nat.nth Nat.Prime i) ∧
      ∀ k e, 0 < k → number k = 2 ^ e → ∃ i, k = t i := by
  obtain ⟨t, h0, ht, hpower, hquiet⟩ := exists_times
  refine ⟨fun i => t (i + 1), fun i j hij => ht (Nat.succ_lt_succ hij), ?_, ?_⟩
  · intro i
    refine ⟨h0 ▸ ht (Nat.succ_pos i), ?_⟩
    rw [number, hpower, value_power]
    rfl
  · intro k e hk he
    rcases hquiet k with hq | ⟨i, rfl⟩
    · rw [value_eq_two_pow_iff.1 he] at hq
      exact absurd hq (not_quiet_power e)
    · cases i with
      | zero => omega
      | succ i => exact ⟨i, rfl⟩

/-! ## Runs -/

/-- The exponent of a power of two. -/
def exponentOfTwo? (x : Nat) : Option Nat := if 2 ^ x.log2 = x then some x.log2 else none

theorem exponentOfTwo?_eq_some_iff {x e : Nat} : exponentOfTwo? x = some e ↔ x = 2 ^ e := by
  unfold exponentOfTwo?
  constructor
  · intro h
    split_ifs at h with hx
    rw [← Option.some.inj h, hx]
  · rintro rfl
    rw [Nat.log2_two_pow, if_pos rfl]

/-- If powers of two stand exactly at certain times, their exponents are met one after the
    other. -/
theorem filterMap_exponentOfTwo? {x t q : Nat → Nat} (ht : StrictMono t) (hpos : ∀ i, 0 < t i)
    (hx : ∀ i, x (t i) = 2 ^ q i) (honly : ∀ k e, 0 < k → x k = 2 ^ e → ∃ i, k = t i) (b : Nat) :
    ∃ j, (∀ i, t i ≤ b ↔ i < j) ∧
      ((List.range b).map fun k => x (k + 1)).filterMap exponentOfTwo? =
        (List.range j).map q := by
  -- `j` counts the times up to `b`, so the next power of two can only be that of time `t j`
  induction b with
  | zero =>
    refine ⟨0, ?_, rfl⟩
    intro i
    have := hpos i
    omega
  | succ b ih =>
    obtain ⟨j, hj, hlist⟩ := ih
    rw [List.range_succ, List.map_append, List.filterMap_append, hlist]
    by_cases hb : b + 1 = t j
    · refine ⟨j + 1, ?_, ?_⟩
      · intro i
        rw [hb, ht.le_iff_le, Nat.lt_succ_iff]
      · have hvalue : exponentOfTwo? (x (b + 1)) = some (q j) :=
          exponentOfTwo?_eq_some_iff.2 (hb ▸ hx j)
        simp [hvalue, List.range_succ]
    · have hne : ∀ i, b + 1 ≠ t i := by
        intro i hi
        rcases Nat.lt_trichotomy i j with hlt | rfl | hgt
        · have := (hj i).2 hlt
          omega
        · exact hb hi
        · have hlt := ht hgt
          exact Nat.lt_irrefl j ((hj j).1 (by omega))
      refine ⟨j, ?_, ?_⟩
      · intro i
        rw [← hj i]
        have := hne i
        omega
      · have hvalue : exponentOfTwo? (x (b + 1)) = none := by
          rw [Option.eq_none_iff_forall_ne_some]
          intro e he
          obtain ⟨i, hi⟩ := honly (b + 1) e (Nat.succ_pos b) (exponentOfTwo?_eq_some_iff.1 he)
          exact hne i hi
        simp [hvalue]

/-! ## The program -/

/-- The program as it is written. -/
def source : String :=
  "17/91,78/85,19/51,23/38,29/33,77/29,95/23,77/19,1/17,11/13,13/11,15/14,15/2,55/1"

def program : Program :=
  ⟨[⟨.ofInt64 17, .ofInt64 91⟩, ⟨.ofInt64 78, .ofInt64 85⟩, ⟨.ofInt64 19, .ofInt64 51⟩,
    ⟨.ofInt64 23, .ofInt64 38⟩, ⟨.ofInt64 29, .ofInt64 33⟩, ⟨.ofInt64 77, .ofInt64 29⟩,
    ⟨.ofInt64 95, .ofInt64 23⟩, ⟨.ofInt64 77, .ofInt64 19⟩, ⟨.ofInt64 1, .ofInt64 17⟩,
    ⟨.ofInt64 11, .ofInt64 13⟩, ⟨.ofInt64 13, .ofInt64 11⟩, ⟨.ofInt64 15, .ofInt64 14⟩,
    ⟨.ofInt64 15, .ofInt64 2⟩, ⟨.ofInt64 55, .ofInt64 1⟩]⟩

theorem parse_source : (({} : Source.Parser).parse ⟨source, false⟩).1 = .ok program := by
  rw [Source.Parser.parse_eq]
  decide +kernel

theorem rules_program : program.rules = moves.map (Move.rule layout.base) := by decide +kernel

theorem positive_program : ∀ f ∈ program.fractions, 0 < f.num.toInt := by decide +kernel

theorem reduced_program : program.Reduced := by
  have hparse := parse_source
  rw [Source.Parser.parse_eq, Source.Stream.parse_eq_ok_iff] at hparse
  exact (Source.reduced_of_parse hparse).1

theorem orbit_program (k : Nat) : program.rules.orbit 2 k = some (number k) := by
  induction k with
  | zero =>
    rw [number, Function.iterate_zero_apply, value_power]
    rfl
  | succ k ih =>
    have hcharts := charts_step (step^[k] (power 1))
    rw [Rules.orbit, ih, Option.bind_some, rules_program, number, hcharts, number,
      Function.iterate_succ_apply']
    rfl

/-- From `2` the program always goes on, and the powers of two that it makes are those with prime
    exponents, in increasing order and all of them: `t` counts off the times at which it comes to
    one. A run with any bound reaches the bound, and the exponents of the powers of two after its
    first line are the first so many primes. -/
theorem run_generates_primes :
    ∃ p, (({} : Source.Parser).parse ⟨source, false⟩).1 = .ok p ∧
      ∃ x t : Nat → Nat,
        (∀ k, ∃ v, p.iterate (.ofInteger (.ofInt64 2)) k = some v ∧ v.IsNat (x k)) ∧
        StrictMono t ∧ (∀ i, 0 < t i ∧ x (t i) = 2 ^ Nat.nth Nat.Prime i) ∧
        (∀ k e, 0 < k → x k = 2 ^ e → ∃ i, k = t i) ∧
        ∀ (bound : Int) (level : Level), 0 < bound →
          let xs := (List.range bound.toNat).map x
          (∃ j, xs.tail.filterMap exponentOfTwo? = (List.range j).map (Nat.nth Nat.Prime)) ∧
          ∃ m, Machine.make p bound level = .ok m ∧
            ∀ s : Session, s.machine = m → ∃ (after : Session) (notes : List String),
              s.call (.run .values (.ofInt64 2)) =
                ⟨.ok (.finished .boundReached (xs.map Nat.repr)), after, notes⟩ := by
  have hc : (Integer.ofInt64 2).Canonical := Integer.canonical_ofInt64 2
  have htwo : (Integer.ofInt64 2).toInt = 2 := by decide +kernel
  obtain ⟨t, ht, hprime, honly⟩ := exists_prime_times
  refine ⟨program, parse_source, number, t, ?_, ht, hprime, honly, ?_⟩
  · intro k
    have hvalid : program.Valid := fun f hf => ⟨reduced_program f hf, positive_program f hf⟩
    exact Program.iterate_of_orbit hvalid ⟨_, rfl, hc, htwo⟩ (orbit_program k)
  · intro bound level hbound
    refine ⟨?_, _, Machine.make_eq_ok_iff.2 ⟨hbound, positive_program, rfl⟩, ?_⟩
    · obtain ⟨b, hb⟩ : ∃ b, bound.toNat = b + 1 := ⟨bound.toNat - 1, by omega⟩
      obtain ⟨j, -, hlist⟩ := filterMap_exponentOfTwo? ht (fun i => (hprime i).1)
        (fun i => (hprime i).2) honly b
      refine ⟨j, ?_⟩
      rw [hb, List.range_succ_eq_map, List.map_cons, List.tail_cons, List.map_map]
      exact hlist
    · intro s hs
      have hmake : Machine.make program bound level = .ok s.machine :=
        hs ▸ Machine.make_eq_ok_iff.2 ⟨hbound, positive_program, rfl⟩
      have horbit : ∀ k, program.rules.orbit (Integer.ofInt64 2).toInt.toNat k =
          some (number k) := by
        rw [htwo]
        exact orbit_program
      obtain ⟨after, notes, hcall⟩ :=
        Session.call_run_of_unending reduced_program hmake hc (by omega) horbit
      refine ⟨after, notes, ?_⟩
      rw [hcall, List.map_map]
      rfl

/-- The first power of two after the start is `4`, the last line of a run with bound `20`. -/
theorem run_generates_primes_two :
    ∃ (p : Program) (x t : Nat → Nat) (m : Machine),
      (({} : Source.Parser).parse ⟨source, false⟩).1 = .ok p ∧ x (t 0) = 4 ∧
      Machine.make p 20 .info = .ok m ∧
      ((Session.ofMachine m).call (.run .values (.ofInt64 2))).answer =
        .ok (.finished .boundReached (((List.range 20).map x).map Nat.repr)) ∧
      ((List.range 20).map x).map Nat.repr =
        ["2", "15", "825", "725", "1925", "2275", "425", "390", "330", "290", "770", "910", "170",
          "156", "132", "116", "308", "364", "68", "4"] := by
  obtain ⟨p, hparse, x, t, -, -, hprime, -, hrun⟩ := run_generates_primes
  obtain ⟨-, m, hm, hcall⟩ := hrun 20 .info (by decide)
  obtain ⟨after, notes, hreply⟩ := hcall (Session.ofMachine m) rfl
  obtain rfl : p = program := Except.ok.inj (hparse.symm.trans parse_source)
  obtain ⟨-, -, rfl⟩ := Machine.make_eq_ok_iff.1 hm
  have hfirst : x (t 0) = 4 := by simp [(hprime 0).2]
  have hanswer : ((Session.ofMachine ⟨program, 20, false⟩).call
      (.run .values (.ofInt64 2))).answer = .ok (.finished .boundReached
        ["2", "15", "825", "725", "1925", "2275", "425", "390", "330", "290", "770", "910", "170",
          "156", "132", "116", "308", "364", "68", "4"]) := by decide +kernel
  have hlines := (congrArg Session.Reply.answer hreply).symm.trans hanswer
  refine ⟨program, x, t, _, hparse, hfirst, hm, congrArg Session.Reply.answer hreply, ?_⟩
  exact (Session.Answer.finished.inj (Except.ok.inj hlines)).2

end Fractran.Primes
