/-
  A machine under any sequence of calls.

  `Performs` lists all that a call can do: it sets a seed and leaves a run from it, it takes a step
  of the current run, or it fails and changes nothing. From this the invariant of one call
  (`Sound.call`) and of any sequence of calls (`Reaches.sound`): the current run tracks the
  trajectory of the seed that was set last and stays within the bound. A run that is over stays
  as it is until a seed is set (`Over.stays`).
-/
import Fractran.Proofs.Machine.Run

namespace Fractran.Session

/-! ## One call -/

/-- The seed that a call asks for. -/
def Call.seed? : Call → Option Integer
  | .reset seed => some seed
  | .run _ seed => some seed
  | .step => none

/-- The seed of the call, if it has one, is canonical. -/
def Call.Canonical (c : Call) : Prop := ∀ seed, c.seed? = some seed → seed.Canonical

/-- The seed that a call has set: none if it failed or asked for none. -/
def Reply.seed? (reply : Reply) (c : Call) : Option Integer :=
  match reply.answer with
  | .ok _ => c.seed?
  | .error _ => none

/-- The replies that a session can give. -/
inductive Performs (s : Session) : Call → Reply → Prop where
  /-- A step without a run fails. -/
  | unready (h : s.run = none) : Performs s .step ⟨.error .noSeed, s, []⟩
  /-- A seed that is not positive is refused. -/
  | refused {c : Call} {seed : Integer} (hc : c.seed? = some seed) (h : seed.toInt ≤ 0) :
      Performs s c ⟨.error (.seedNotPositive seed), s, []⟩
  /-- A step of the current run. -/
  | step {r : Run} (h : s.run = some r) :
      Performs s .step ⟨.ok (.stepped (s.machine.step r).outcome),
        { s with run := some (s.machine.step r).run }, (s.machine.step r).notes⟩
  /-- A new run. -/
  | reset {seed : Integer} (h : 0 < seed.toInt) :
      Performs s (.reset seed)
        ⟨.ok .ready, { s with run := some { value := .ofInteger seed } }, []⟩
  /-- A new run to its end. -/
  | run {mode : Mode} {seed : Integer} {status : Status} {t : Transcript} (h : 0 < seed.toInt)
      (ht : s.machine.runFrom mode seed = .ok (status, t)) :
      Performs s (.run mode seed) ⟨.ok (.finished status t.lines.toList),
        { s with run := some t.run }, t.notes.toList⟩

theorem performs_call (s : Session) (c : Call) : s.Performs c (s.call c) := by
  cases c with
  | step =>
    cases hr : s.run with
    | none =>
      simp only [call, hr]
      exact .unready hr
    | some r =>
      simp only [call, hr]
      exact .step hr
  | reset seed =>
    rcases Int.lt_or_le 0 seed.toInt with hpos | hle
    · simp only [call, Machine.start_eq_ok_iff.2 ⟨hpos, rfl⟩]
      exact .reset hpos
    · simp only [call, Machine.start_eq_error hle]
      exact .refused rfl hle
  | run mode seed =>
    rcases Int.lt_or_le 0 seed.toInt with hpos | hle
    · have ht := s.machine.runFrom_eq_drive mode hpos
      simp only [call, ht]
      exact .run hpos ht
    · have herror : s.machine.runFrom mode seed = .error (.seedNotPositive seed) := by
        rw [Machine.runFrom, Machine.start_eq_error hle]
        rfl
      simp only [call, herror]
      exact .refused rfl hle

/-! ## What one call keeps -/

/-- The current run tracks the trajectory of the seed and stays within the bound. Without a seed
    there is no run. -/
inductive Sound (m : Machine) (s : Session) : Option Integer → Prop where
  | unset (hm : s.machine = m) (h : s.run = none) : Sound m s none
  | set {seed : Integer} {r : Run} (hm : s.machine = m) (h : s.run = some r)
      (hpos : 0 < seed.toInt) (ht : r.Tracks m.program.rules seed.toInt.toNat)
      (hb : r.steps ≤ m.bound) : Sound m s (some seed)

theorem Sound.machine {m : Machine} {s : Session} {seed : Option Integer} (h : s.Sound m seed) :
    s.machine = m := by
  cases h with
  | unset hm => exact hm
  | set hm => exact hm

/-- A call keeps the session sound, for the seed that it sets or else for the seed before. -/
theorem Sound.call {m : Machine} (hv : m.program.Valid) (hb : 0 < m.bound) {s : Session}
    {seed : Option Integer} (h : s.Sound m seed) {c : Call} (hc : c.Canonical) :
    (s.call c).session.Sound m (((s.call c).seed? c).or seed) := by
  have hm := h.machine
  cases hreply : s.call c with
  | mk answer s' notes =>
    have hp := hreply ▸ s.performs_call c
    cases hp with
    | unready => exact h
    | refused => exact h
    | step hr =>
      cases h with
      | unset _ hnone =>
        rw [hnone] at hr
        cases hr
      | set _ hr' hpos ht hle =>
        obtain rfl := Option.some.inj (hr'.symm.trans hr)
        subst hm
        exact .set rfl rfl hpos (ht.step hv) (Machine.step_steps_le hle)
    | @reset n hpos =>
      have hn : n.toInt = n.toInt.toNat := (Int.toNat_of_nonneg (by omega)).symm
      exact .set hm rfl hpos (.start (hc n rfl) hn) (Nat.zero_le _)
    | @run mode n status t hpos ht =>
      subst hm
      have hn : n.toInt = n.toInt.toNat := (Int.toNat_of_nonneg (by omega)).symm
      obtain ⟨status', t', -, ht', htracks, -, hle, -⟩ :=
        Machine.runFrom_spec hv hb mode (hc n rfl) hn (by omega)
      obtain ⟨rfl, rfl⟩ := Prod.mk.inj (Except.ok.inj (ht.symm.trans ht'))
      exact .set rfl rfl hpos htracks hle

/-- The current run is over, and a step says so. -/
def Over (status : Status) (s : Session) : Prop :=
  ∃ r, s.run = some r ∧ s.machine.step r = ⟨.ended status, r, []⟩

theorem Over.call_step {status : Status} {s : Session} (h : s.Over status) :
    s.call .step = ⟨.ok (.stepped (.ended status)), s, []⟩ := by
  obtain ⟨r, hr, hs⟩ := h
  simp only [call, hr, hs]
  rw [← hr]

/-- A step that yields no value leaves a run that is over. -/
theorem over_of_ended {status : Status} {s : Session}
    (h : (s.call .step).answer = .ok (.stepped (.ended status))) :
    (s.call .step).session.Over status := by
  cases hreply : s.call .step with
  | mk answer s' notes =>
    rw [hreply] at h
    have hp := hreply ▸ s.performs_call .step
    cases hp with
    | unready => cases h
    | refused => cases h
    | @step r hr =>
      cases hs : s.machine.step r with
      | mk outcome run notes =>
        rw [hs] at h
        cases h
        exact ⟨run, rfl, Machine.step_of_ended hs⟩

/-- A run to the end leaves a run that is over. -/
theorem over_of_finished {mode : Mode} {seed : Integer} {status : Status} {lines : List String}
    {s : Session} (h : (s.call (.run mode seed)).answer = .ok (.finished status lines)) :
    (s.call (.run mode seed)).session.Over status := by
  cases hreply : s.call (.run mode seed) with
  | mk answer s' notes =>
    rw [hreply] at h
    have hp := hreply ▸ s.performs_call (.run mode seed)
    cases hp with
    | refused => cases h
    | run hpos ht =>
      cases h
      exact ⟨_, rfl, Machine.step_of_runFrom hpos ht⟩

/-- When a run is over, a call that sets no seed changes nothing. -/
theorem Over.call {status : Status} {s : Session} (h : s.Over status) {c : Call}
    (hc : (s.call c).seed? c = none) : (s.call c).session = s := by
  cases hreply : s.call c with
  | mk answer s' notes =>
    have hp := hreply ▸ s.performs_call c
    rw [hreply] at hc
    cases hp with
    | unready => rfl
    | refused => rfl
    | step =>
      rw [h.call_step] at hreply
      exact (congrArg Reply.session hreply).symm
    | reset => cases hc
    | run => cases hc

/-! ## Sequences of calls -/

/-- Calls lead from one session to another. The seed is the one that was set last on the way, if
    one was; calls that fail are calls too. -/
inductive Reaches (s : Session) : Session → Option Integer → Prop where
  | refl : Reaches s s none
  | call {t : Session} {seed : Option Integer} (h : Reaches s t seed) {c : Call}
      (hc : c.Canonical) : Reaches s (t.call c).session (((t.call c).seed? c).or seed)

theorem Reaches.sound {m : Machine} (hv : m.program.Valid) (hb : 0 < m.bound) {s : Session}
    {seed : Option Integer} (h : Reaches (ofMachine m) s seed) : s.Sound m seed := by
  induction h with
  | refl => exact .unset rfl rfl
  | call _ hc ih => exact ih.call hv hb hc

theorem Over.reaches {status : Status} {s t : Session} (h : s.Over status) {seed : Option Integer}
    (ht : Reaches s t seed) (hseed : seed = none) : t = s := by
  induction ht with
  | refl => rfl
  | call _ _ ih =>
    obtain ⟨hcall, hbefore⟩ := Option.or_eq_none_iff.1 hseed
    obtain rfl := ih hbefore
    exact h.call hcall

/-- A run that is over stays over: as long as no seed is set, every step says so. -/
theorem Over.stays {status : Status} {s t : Session} (h : s.Over status)
    (ht : Reaches s t none) :
    t = s ∧ t.call .step = ⟨.ok (.stepped (.ended status)), t, []⟩ ∧
      (Outcome.ended status).value = .zero := by
  obtain rfl := h.reaches ht rfl
  exact ⟨rfl, h.call_step, rfl⟩

/-- A session without a seed: it cannot step. -/
structure Unseeded (s : Session) : Prop where
  step : s.call .step = ⟨.error .noSeed, s, []⟩
  value : s.value = .zero
  steps : s.steps = 0
  last : s.last = none
  halted : s.halted = false

/-- A session for a program with a bound, after a seed was set. -/
structure Seeded (p : Program) (bound : Int64) (seed : Integer) (s : Session) : Prop where
  value : ∃ x, p.rules.orbit seed.toInt.toNat (max s.steps 1 - 1) = some x ∧
    s.value.IsNat x ∧ 0 < x
  steps_le : (s.steps : ℤ) ≤ bound.toInt
  last_none : s.last = none ↔ s.steps ≤ 1
  last_lt : ∀ i, s.last = some i → i < p.size
  halted : s.halted = true →
    1 ≤ s.steps ∧ ∀ f ∈ p.fractions, ∀ z : ℤ, s.value.toRat * f.toRat ≠ z

theorem Sound.unseeded {m : Machine} {s : Session} (h : s.Sound m none) : s.Unseeded := by
  cases h with
  | unset _ hr =>
    refine ⟨?_, ?_, ?_, ?_, ?_⟩
    · simp only [Session.call, hr]
    · rw [Session.value, hr]
      rfl
    · rw [Session.steps, hr]
      rfl
    · rw [Session.last, hr]
      rfl
    · rw [Session.halted, hr]
      rfl

theorem Sound.seeded {m : Machine} (hv : m.program.Valid) {bound : Int64}
    (hbound : (m.bound : ℤ) = bound.toInt) {s : Session} {seed : Integer}
    (h : s.Sound m (some seed)) : s.Seeded m.program bound seed := by
  cases h with
  | @set _ r _ hr hpos ht hle =>
    have hn : 0 < seed.toInt.toNat := by omega
    have hvalue : s.value = r.value := by rw [Session.value, hr]; rfl
    have hsteps : s.steps = r.steps := by rw [Session.steps, hr]; rfl
    have hlast : s.last = r.last := by rw [Session.last, hr]; rfl
    have hhalted : s.halted = r.halted := by rw [Session.halted, hr]; rfl
    constructor
    · obtain ⟨x, hx, hval⟩ := ht.value_pos hv hn
      refine ⟨x, ?_, hvalue ▸ hval⟩
      rw [hsteps, show max r.steps 1 - 1 = r.steps - 1 by omega]
      exact hx
    · rw [hsteps, ← hbound]
      exact_mod_cast hle
    · rw [hlast, hsteps]
      exact ht.last_eq_none_iff
    · intro i hi
      exact ht.last_lt (hlast ▸ hi)
    · intro hh
      rw [hhalted] at hh
      rw [hsteps, hvalue]
      exact ⟨(ht.halted hh).1, ht.not_int_of_halted hv hh⟩

theorem reduced_three_halves : Program.Reduced ⟨[⟨.ofInt64 3, .ofInt64 2⟩]⟩ := by
  have hmake : Fraction.make (.ofInt64 3) (.ofInt64 2) = .ok ⟨.ofInt64 3, .ofInt64 2⟩ := by
    decide +kernel
  rw [Program.Reduced, List.forall_mem_singleton]
  exact (Fraction.Initial.quotient (Integer.canonical_ofInt64 _) (Integer.canonical_ofInt64 _)
    hmake).reduced

theorem make_three_halves {b : Int} (hb : 0 < b) :
    Machine.make ⟨[⟨.ofInt64 3, .ofInt64 2⟩]⟩ b .info =
      .ok (ofMachine ⟨⟨[⟨.ofInt64 3, .ofInt64 2⟩]⟩, b.toNat, false⟩).machine := by
  refine Machine.make_eq_ok_iff.2 ⟨hb, ?_, rfl⟩
  rw [List.forall_mem_singleton]
  decide

/-- Whatever calls a machine was given, failing calls included: its program and bound are those it
    was made with. Before a seed was set a step fails and nothing has changed. Afterwards the
    value is a positive integer on the trajectory of the seed that was set last, the steps are
    within the bound, and the last index and the halted flag fit them. Once a step has found the
    run over, every further step finds the same and changes nothing until a seed is set; and so
    does every step after a run or trace, from the first one on, with the status of that run. -/
theorem reaches_invariant {p : Program} (hp : p.Reduced) {bound : Int64} {level : Level}
    {m : Machine} (hm : Machine.make p bound.toInt level = .ok m) {s : Session}
    {seed : Option Integer} (h : Reaches (ofMachine m) s seed) :
    (s.machine = m ∧ s.machine.program = p ∧ (s.machine.bound : ℤ) = bound.toInt) ∧
    (seed = none → s.Unseeded) ∧
    (∀ n, seed = some n → s.Seeded p bound n) ∧
    (∀ status, (s.call .step).answer = .ok (.stepped (.ended status)) →
      ∀ t, Reaches (s.call .step).session t none →
        t = (s.call .step).session ∧ t.call .step = ⟨.ok (.stepped (.ended status)), t, []⟩ ∧
        (Outcome.ended status).value = .zero) ∧
    ∀ mode n status lines, (s.call (.run mode n)).answer = .ok (.finished status lines) →
      ∀ t, Reaches (s.call (.run mode n)).session t none →
        t = (s.call (.run mode n)).session ∧
        t.call .step = ⟨.ok (.stepped (.ended status)), t, []⟩ ∧
        (Outcome.ended status).value = .zero := by
  obtain ⟨rfl, hbound, hpos, hv⟩ := Machine.make_spec hp hm
  have hsound := h.sound hv hpos
  refine ⟨⟨hsound.machine, by rw [hsound.machine], by rw [hsound.machine, hbound]⟩, ?_, ?_, ?_, ?_⟩
  · rintro rfl
    exact hsound.unseeded
  · rintro n rfl
    exact hsound.seeded hv hbound
  · intro status hended t ht
    exact (over_of_ended hended).stays ht
  · intro mode n status lines hfinished t ht
    exact (over_of_finished hfinished).stays ht

/-- After seed zero was refused, a run of `3/2` from `2` makes `3` and halts. A step finds it
    halted, and so does another one after seed zero was refused again. -/
theorem reaches_invariant_three_halves :
    ∃ m s t, Machine.make ⟨[⟨.ofInt64 3, .ofInt64 2⟩]⟩ (5 : Int64).toInt .info = .ok m ∧
      Reaches (ofMachine m) s (some (.ofInt64 2)) ∧
      s.Seeded ⟨[⟨.ofInt64 3, .ofInt64 2⟩]⟩ 5 (.ofInt64 2) ∧ s.halted = true ∧
      s.call .step = ⟨.ok (.stepped (.ended .halted)), s, []⟩ ∧
      Reaches (s.call .step).session t none ∧
      t.call .step = ⟨.ok (.stepped (.ended .halted)), t, []⟩ := by
  have hm := make_three_halves (show 0 < (5 : Int64).toInt by decide)
  have hzero : Call.Canonical (.reset .zero) := by
    rintro seed ⟨⟩
    exact Integer.canonical_zero
  have htwo : Call.Canonical (.run .values (.ofInt64 2)) := by
    rintro seed ⟨⟩
    exact Integer.canonical_ofInt64 2
  have hrefused (s : Session) : Reaches s s none := Reaches.refl.call hzero
  have hfresh := hrefused (ofMachine ⟨⟨[⟨.ofInt64 3, .ofInt64 2⟩]⟩, 5, false⟩)
  have hreaches := hfresh.call htwo
  obtain ⟨-, -, -, -, hfinished⟩ := reaches_invariant reduced_three_halves hm hfresh
  obtain ⟨-, -, hseeded, hover, -⟩ := reaches_invariant reduced_three_halves hm hreaches
  have hfirst := (hfinished .values (.ofInt64 2) .halted ["2", "3"] (by decide +kernel) _ .refl).2.1
  exact ⟨_, _, _, hm, hreaches, hseeded _ rfl, by decide +kernel, hfirst, hrefused _,
    (hover .halted (by decide +kernel) _ (hrefused _)).2.1⟩

end Fractran.Session
