/-
  Rules as moves of prime exponents.

  Over a base of distinct primes a list of exponents stands for a number (`value`), and different
  lists stand for different numbers (`value_inj`). A rule whose two sides are such numbers is a
  move: it gives exponents and takes others away, and it applies where there is enough to take.
  So a list of rules can be followed on exponents alone (`next?_value`).

  A chart follows rules on states of any kind (`Charts`). `Leads` says that a chart comes from one
  state to another in so many steps and what it meets on the way; paths of a chart are paths of
  the trajectory (`Leads.orbit`).
-/
import Fractran.Proofs.Trajectory
import Mathlib.Data.Nat.PSub
import Mathlib.Data.Nat.Prime.Basic

namespace Fractran

theorem Rules.next?_cons (r : Rule) (rules : Rules) (x : Nat) :
    Rules.next? (r :: rules) x = if r.Applies x then some (r.apply x) else rules.next? x := by
  unfold next? firing?
  rw [List.findIdx?_cons]
  by_cases h : r.Applies x
  · simp [h]
  · simp [h, Option.bind_map]

namespace Exponents

/-- The product of the powers of a base with the given exponents. -/
def value : List Nat → List Nat → Nat
  | p :: ps, e :: es => p ^ e * value ps es
  | _, _ => 1

/-- The primes of a base are all different. -/
structure Base (ps : List Nat) : Prop where
  prime : ∀ p ∈ ps, p.Prime
  nodup : ps.Nodup

theorem Base.tail {p : Nat} {ps : List Nat} (h : Base (p :: ps)) : Base ps :=
  ⟨fun q hq => h.prime q (List.mem_cons_of_mem p hq), (List.nodup_cons.1 h.nodup).2⟩

/-! ## Divisibility -/

theorem coprime_value {p : Nat} {ps : List Nat} (h : Base (p :: ps)) (es : List Nat) :
    Nat.Coprime p (value ps es) := by
  induction ps generalizing es with
  | nil => simp [value]
  | cons q ps ih =>
    cases es with
    | nil => simp [value]
    | cons e es =>
      obtain ⟨hne, hmem⟩ : p ≠ q ∧ p ∉ ps := by simpa using (List.nodup_cons.1 h.nodup).1
      have hpq : Nat.Coprime p q :=
        (Nat.coprime_primes (h.prime p (by simp)) (h.prime q (by simp))).2 hne
      have hbase : Base (p :: ps) := by
        refine ⟨fun r hr => h.prime r ?_, List.nodup_cons.2 ⟨hmem, h.tail.tail.nodup⟩⟩
        rcases List.mem_cons.1 hr with rfl | hr <;> simp [*]
      exact Nat.Coprime.mul_right (hpq.pow_right e) (ih hbase es)

theorem value_pos {ps : List Nat} (h : Base ps) (es : List Nat) : 0 < value ps es := by
  induction ps generalizing es with
  | nil => simp [value]
  | cons p ps ih =>
    cases es with
    | nil => simp [value]
    | cons e es =>
      exact Nat.mul_pos (Nat.pow_pos (h.prime p (by simp)).pos) (ih h.tail es)

/-- What divides must not have a larger exponent of the first prime. -/
theorem le_of_value_dvd {p : Nat} {ps : List Nat} (h : Base (p :: ps)) {d e : Nat}
    {ds es : List Nat} (hdvd : value (p :: ps) (d :: ds) ∣ value (p :: ps) (e :: es)) : d ≤ e := by
  have hpow : p ^ d ∣ p ^ e * value ps es := Dvd.dvd.trans (Nat.dvd_mul_right _ _) hdvd
  have hpow : p ^ d ∣ p ^ e := ((coprime_value h es).pow_left d).dvd_of_dvd_mul_right hpow
  exact (Nat.pow_dvd_pow_iff_le_right (h.prime p (by simp)).one_lt).1 hpow

theorem value_dvd_tail {p : Nat} {ps : List Nat} (h : Base (p :: ps)) {d e : Nat}
    {ds es : List Nat} (hdvd : value (p :: ps) (d :: ds) ∣ value (p :: ps) (e :: es)) :
    value ps ds ∣ value ps es := by
  have hrest : value ps ds ∣ p ^ e * value ps es := Dvd.dvd.trans (Nat.dvd_mul_left _ _) hdvd
  exact ((coprime_value h ds).symm.pow_right e).dvd_of_dvd_mul_left hrest

/-- A number has one list of exponents over a base. -/
theorem value_inj {ps : List Nat} (h : Base ps) {ds es : List Nat} (hd : ds.length = ps.length)
    (he : es.length = ps.length) (heq : value ps ds = value ps es) : ds = es := by
  induction ps generalizing ds es with
  | nil => rw [List.eq_nil_of_length_eq_zero hd, List.eq_nil_of_length_eq_zero he]
  | cons p ps ih =>
    obtain ⟨d, ds, rfl⟩ := List.exists_cons_of_length_eq_add_one hd
    obtain ⟨e, es, rfl⟩ := List.exists_cons_of_length_eq_add_one he
    have hle : d ≤ e := le_of_value_dvd h (dvd_of_eq heq)
    have hge : e ≤ d := le_of_value_dvd h (dvd_of_eq heq.symm)
    obtain rfl : d = e := Nat.le_antisymm hle hge
    have hrest := Nat.eq_of_mul_eq_mul_left (Nat.pow_pos (h.prime p (by simp)).pos) heq
    rw [ih h.tail (by simpa using hd) (by simpa using he) hrest]

/-! ## Moves -/

theorem value_zipWith_add {ps ds es : List Nat} (hd : ds.length = ps.length)
    (he : es.length = ps.length) :
    value ps (List.zipWith (· + ·) ds es) = value ps ds * value ps es := by
  induction ps generalizing ds es with
  | nil => simp [value]
  | cons p ps ih =>
    obtain ⟨d, ds, rfl⟩ := List.exists_cons_of_length_eq_add_one hd
    obtain ⟨e, es, rfl⟩ := List.exists_cons_of_length_eq_add_one he
    rw [List.zipWith_cons_cons, value, value, value,
      ih (by simpa using hd) (by simpa using he), Nat.pow_add, Nat.mul_mul_mul_comm]

/-- Take exponents away, if there are enough of each. The last one is looked at first. -/
def remove? : List Nat → List Nat → Option (List Nat)
  | d :: ds, e :: es => (remove? ds es).bind fun rest => (e.psub d).map (· :: rest)
  | _, _ => some []

theorem remove?_eq_some {ps ds es rest : List Nat} (hd : ds.length = ps.length)
    (he : es.length = ps.length) (h : remove? ds es = some rest) :
    value ps es = value ps ds * value ps rest := by
  induction ps generalizing ds es rest with
  | nil =>
    obtain rfl := List.eq_nil_of_length_eq_zero hd
    obtain rfl := Option.some.inj h
    simp [value]
  | cons p ps ih =>
    obtain ⟨d, ds, rfl⟩ := List.exists_cons_of_length_eq_add_one hd
    obtain ⟨e, es, rfl⟩ := List.exists_cons_of_length_eq_add_one he
    obtain ⟨rest, hrest, hmap⟩ := Option.bind_eq_some_iff.1 h
    obtain ⟨r, hr, rfl⟩ := Option.map_eq_some_iff.1 hmap
    obtain rfl := Nat.psub_eq_some.1 hr
    have hvalue := ih (by simpa using hd) (by simpa using he) hrest
    rw [value, value, value, hvalue, Nat.mul_mul_mul_comm, ← Nat.pow_add, Nat.add_comm d]

theorem remove?_eq_none {ps ds es : List Nat} (hps : Base ps) (hd : ds.length = ps.length)
    (he : es.length = ps.length) (h : remove? ds es = none) : ¬ value ps ds ∣ value ps es := by
  induction ps generalizing ds es with
  | nil =>
    obtain rfl := List.eq_nil_of_length_eq_zero hd
    cases h
  | cons p ps ih =>
    obtain ⟨d, ds, rfl⟩ := List.exists_cons_of_length_eq_add_one hd
    obtain ⟨e, es, rfl⟩ := List.exists_cons_of_length_eq_add_one he
    intro hdvd
    apply ih hps.tail (by simpa using hd) (by simpa using he) _ (value_dvd_tail hps hdvd)
    rw [remove?, Nat.psub_eq_sub (le_of_value_dvd hps hdvd), Option.bind_eq_none_iff] at h
    exact Option.eq_none_iff_forall_ne_some.2 fun rest hrest => by cases h rest hrest

/-- How often each prime of a base stands in a list. -/
def exponents (ps l : List Nat) : List Nat := ps.map fun p => l.count p

theorem length_exponents (ps l : List Nat) : (exponents ps l).length = ps.length :=
  List.length_map _

/-- A rule by the primes of its numerator and of its denominator. -/
structure Move where
  give : List Nat
  take : List Nat

namespace Move

/-- The rule of a move over a base. -/
def rule (ps : List Nat) (m : Move) : Rule :=
  ⟨value ps (exponents ps m.give), value ps (exponents ps m.take)⟩

/-- The exponents after the move, if it can be made. -/
def after? (ps : List Nat) (m : Move) (es : List Nat) : Option (List Nat) :=
  remove? (exponents ps m.take) (List.zipWith (· + ·) es (exponents ps m.give))

section

variable {ps : List Nat} (hps : Base ps) {m : Move} {es : List Nat} (he : es.length = ps.length)

include he

theorem value_given : value ps (List.zipWith (· + ·) es (exponents ps m.give)) =
    value ps es * (m.rule ps).num :=
  value_zipWith_add he (length_exponents ps m.give)

theorem length_given :
    (List.zipWith (· + ·) es (exponents ps m.give)).length = ps.length := by
  simp [length_exponents, he]

include hps

/-- Where a move can be made its rule applies, and makes the same. -/
theorem after?_eq_some {rest : List Nat} (h : m.after? ps es = some rest) :
    (m.rule ps).Applies (value ps es) ∧ (m.rule ps).apply (value ps es) = value ps rest := by
  have hrest := remove?_eq_some (length_exponents ps m.take) (length_given he) h
  rw [value_given he] at hrest
  exact ⟨Dvd.intro _ hrest.symm, Rule.apply_eq_of_mul_eq (value_pos hps _) hrest⟩

/-- Where a move cannot be made its rule does not apply. -/
theorem after?_eq_none (h : m.after? ps es = none) : ¬ (m.rule ps).Applies (value ps es) := by
  have hnot := remove?_eq_none hps (length_exponents ps m.take) (length_given he) h
  rwa [value_given he] at hnot

end

end Move

/-- The exponents after the first move that can be made. -/
def next? (ps : List Nat) (ms : List Move) (es : List Nat) : Option (List Nat) :=
  ms.findSome? (·.after? ps es)

/-- Moves do on exponents what their rules do on numbers. -/
theorem next?_value {ps : List Nat} (hps : Base ps) (ms : List Move) {es : List Nat}
    (he : es.length = ps.length) :
    Rules.next? (ms.map (Move.rule ps)) (value ps es) = (next? ps ms es).map (value ps) := by
  induction ms with
  | nil => rfl
  | cons m ms ih =>
    rw [List.map_cons, Rules.next?_cons, next?, List.findSome?_cons]
    cases h : m.after? ps es with
    | none =>
      rw [if_neg (Move.after?_eq_none hps he h)]
      exact ih
    | some rest =>
      obtain ⟨happ, heq⟩ := Move.after?_eq_some hps he h
      rw [if_pos happ, heq, Option.map_some]

end Exponents

/-! ## Charts -/

/-- The states of a chart stand for numbers, and the chart goes where the rules go. -/
def Charts {σ : Type} (next : σ → Option σ) (value : σ → Nat) (rules : Rules) : Prop :=
  ∀ s, rules.next? (value s) = (next s).map value

/-- A chart comes from one state to another in `k` steps, and the states it comes to, the last one
    included, have the property. -/
inductive Leads {σ : Type} (next : σ → Option σ) (P : σ → Prop) : Nat → σ → σ → Prop where
  | refl (s : σ) : Leads next P 0 s s
  | step {k : Nat} {s s₁ s' : σ} (hs : next s = some s₁) (hp : P s₁)
      (h : Leads next P k s₁ s') : Leads next P (k + 1) s s'

namespace Leads

variable {σ : Type} {next : σ → Option σ} {P : σ → Prop}

theorem single {s s' : σ} (hs : next s = some s') (hp : P s') : Leads next P 1 s s' :=
  .step hs hp (.refl s')

theorem trans {j k : Nat} {s s₁ s' : σ} (h : Leads next P j s s₁) (h' : Leads next P k s₁ s') :
    Leads next P (j + k) s s' := by
  induction h with
  | refl s => rwa [Nat.zero_add]
  | step hs hp _ ih =>
    rw [Nat.add_right_comm]
    exact .step hs hp (ih h')

/-- A path of a chart is a path of the trajectory, with every state on it. -/
theorem orbit {value : σ → Nat} {rules : Rules} (hc : Charts next value rules) {k : Nat}
    {s s' : σ} (h : Leads next P k s s') {n j : Nat} (hj : rules.orbit n j = some (value s)) :
    rules.orbit n (j + k) = some (value s') := by
  induction h generalizing j with
  | refl s => exact hj
  | @step k s s₁ s' hs _ _ ih =>
    rw [Nat.add_comm k, ← Nat.add_assoc]
    apply ih
    rw [Rules.orbit, hj, Option.bind_some, hc s, hs, Option.map_some]

/-- A path of a chart that always goes on, step by step. -/
theorem iterate {step : σ → σ} {k : Nat} {s s' : σ}
    (h : Leads (fun s => some (step s)) P k s s') :
    step^[k] s = s' ∧ ∀ j, j < k → P (step^[j + 1] s) := by
  induction h with
  | refl s => exact ⟨rfl, by simp⟩
  | step hs hp _ ih =>
    obtain rfl := Option.some.inj hs
    obtain ⟨hend, hmet⟩ := ih
    refine ⟨hend, ?_⟩
    intro j hj
    cases j with
    | zero => exact hp
    | succ j => exact hmet j (by omega)

end Leads

/-! ## Registers and a place -/

namespace Exponents

/-- A place in a program and the exponents of the primes that it computes with. -/
structure State (Place : Type) where
  place : Place
  two : Nat
  three : Nat
  five : Nat
  seven : Nat

/-- How a program writes its place: as a product of larger primes. -/
structure Layout (Place : Type) where
  larger : List Nat
  letters : Place → List Nat

namespace Layout

variable {Place : Type} (l : Layout Place)

def base : List Nat := 2 :: 3 :: 5 :: 7 :: l.larger

def exponents (s : State Place) : List Nat :=
  s.two :: s.three :: s.five :: s.seven :: Exponents.exponents l.larger (l.letters s.place)

/-- The number that a state stands for. -/
def value (s : State Place) : Nat := Exponents.value l.base (l.exponents s)

theorem length_exponents (s : State Place) : (l.exponents s).length = l.base.length := by
  simp [exponents, base, Exponents.length_exponents]

theorem charts (hb : Base l.base) {next : State Place → Option (State Place)} {ms : List Move}
    (h : ∀ s, next? l.base ms (l.exponents s) = (next s).map l.exponents) :
    Charts next l.value (ms.map (Move.rule l.base)) := by
  intro s
  rw [value, next?_value hb ms (l.length_exponents s), h, Option.map_map]
  rfl

end Layout

end Exponents

end Fractran
