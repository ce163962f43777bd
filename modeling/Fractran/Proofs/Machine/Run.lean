/-
  Whole runs of a machine against the trajectory of its rules.

  A run is a sequence of steps that yield values, then one step that does not (`drive_spec`); the
  values are the numbers of the trajectory in order (`Produces.tracks`). So a run prints the
  trajectory up to the bound or up to its end and stops there (`runFrom_spec`), also for a
  program that was pushed from pairs that are not in lowest terms.
-/
import Fractran.Machine.Session
import Fractran.Proofs.Machine.Step

namespace Fractran.Machine

/-- A value that a step yields, the run after the step and what the machine notes. -/
structure Production where
  value : Integer
  run : Run
  notes : List String

/-- Steps from `r` yield the productions one after the other and lead to `r'`. -/
inductive Produces (m : Machine) : Run → List Production → Run → Prop where
  | done (r : Run) : Produces m r [] r
  | more {r r' : Run} {p : Production} {ps : List Production}
      (hs : m.step r = ⟨.produced p.value, p.run, p.notes⟩) (h : Produces m p.run ps r') :
      Produces m r (p :: ps) r'

/-! ## Driving a machine -/

/-- The line that is printed for a production. -/
def productionLine (m : Machine) (mode : Mode) (p : Production) : String :=
  m.line mode p.run p.value

/-- Driving a machine takes steps as long as they yield values, prints a line for each, and takes
    one more step, which ends the run. -/
theorem drive_spec (m : Machine) (mode : Mode) (limit : Nat) (t : Transcript)
    (hh : t.run.halted = false) (hl : t.run.steps + limit = m.bound) :
    ∃ ps r status r' notes, m.Produces t.run ps r ∧ r.halted = false ∧
      m.step r = ⟨.ended status, r', notes⟩ ∧
      (m.drive mode limit t).1 = status ∧ (m.drive mode limit t).2.run = r' ∧
      (m.drive mode limit t).2.lines.toList =
        t.lines.toList ++ ps.map (m.productionLine mode) ∧
      (m.drive mode limit t).2.notes.toList =
        t.notes.toList ++ (ps.flatMap Production.notes ++ notes) := by
  induction limit generalizing t with
  | zero =>
    refine ⟨[], t.run, .boundReached, t.run, [], .done _, hh, ?_, rfl, rfl, by simp [drive],
      by simp [drive]⟩
    unfold step
    rw [hh, if_neg (by decide), if_pos (by omega)]
  | succ limit ih =>
    cases hs : m.step t.run with
    | mk outcome r notes =>
      cases outcome with
      | produced v =>
        obtain ⟨-, hsteps, hhalt, -⟩ := step_produced hs
        obtain ⟨ps, r₁, status, r₂, notes', hps, hrun, hend, hst, hr, hlines, hnotes⟩ :=
          ih ⟨r, t.lines.push (m.line mode r v), t.notes ++ notes⟩ hhalt (by simp only; omega)
        refine ⟨⟨v, r, notes⟩ :: ps, r₁, status, r₂, notes', .more hs hps, hrun, hend, ?_⟩
        rw [drive, hs]
        refine ⟨hst, hr, ?_, ?_⟩
        · rw [hlines]
          simp [productionLine]
        · rw [hnotes]
          simp
      | ended status =>
        refine ⟨[], t.run, status, r, notes, .done _, hh, hs, ?_⟩
        rw [drive, hs]
        exact ⟨rfl, rfl, by simp, by simp⟩

theorem runFrom_eq_drive (m : Machine) (mode : Mode) {seed : Integer} (h : 0 < seed.toInt) :
    m.runFrom mode seed =
      .ok (m.drive mode m.bound { run := { value := .ofInteger seed } }) := by
  rw [runFrom, start_eq_ok_iff.2 ⟨h, rfl⟩]
  rfl

/-- A run from a positive seed takes steps that yield values and prints a line for each, and then
    one that ends it. -/
theorem runFrom_produces (m : Machine) (mode : Mode) {seed : Integer} (hpos : 0 < seed.toInt) :
    ∃ (status : Status) (t : Transcript) (ps : List Production) (r : Run) (notes : List String),
      m.runFrom mode seed = .ok (status, t) ∧ m.Produces { value := .ofInteger seed } ps r ∧
      r.halted = false ∧ m.step r = ⟨.ended status, t.run, notes⟩ ∧
      t.lines.toList = ps.map (m.productionLine mode) ∧
      t.notes.toList = ps.flatMap Production.notes ++ notes := by
  obtain ⟨ps, r, status, r', notes, hps, hr, hend, rfl, rfl, hlines, hnotes⟩ :=
    drive_spec m mode m.bound { run := { value := .ofInteger seed } } rfl (Nat.zero_add _)
  exact ⟨_, _, ps, r, notes, m.runFrom_eq_drive mode hpos, hps, hr, hend, hlines, hnotes⟩

/-- A run to the end leaves nothing to do: one more step says again how it ended. -/
theorem step_of_runFrom {m : Machine} {mode : Mode} {seed : Integer} {status : Status}
    {t : Transcript} (hpos : 0 < seed.toInt) (ht : m.runFrom mode seed = .ok (status, t)) :
    m.step t.run = ⟨.ended status, t.run, []⟩ := by
  obtain ⟨status', t', ps, r, notes, ht', -, -, hend, -⟩ := m.runFrom_produces mode hpos
  cases ht.symm.trans ht'
  exact step_of_ended hend

/-! ## Values along the trajectory -/

/-- The production belongs to the number after `k` applications. -/
structure Production.At (rules : Rules) (n k : Nat) (p : Production) : Prop where
  value : ∃ x, rules.orbit n k = some x ∧ p.value.Canonical ∧ p.value.toInt = x
  last : p.run.last = rules.maker n k
  steps : p.run.steps = k + 1

theorem Produces.tracks {m : Machine} (hm : m.program.Valid) {n : Nat} {r r' : Run}
    {ps : List Production} (h : m.Produces r ps r') (hr : r.Tracks m.program.rules n) :
    r'.Tracks m.program.rules n ∧ r'.steps = r.steps + ps.length ∧
      (r.steps ≤ m.bound → r'.steps ≤ m.bound) ∧
      ∀ (k : Nat) (p : Production), ps[k]? = some p →
        p.At m.program.rules n (r.steps + k) := by
  induction h with
  | done r => exact ⟨hr, rfl, id, by simp⟩
  | @more r r' p ps hs h ih =>
    obtain ⟨hlt, hsteps, hhalt, hval⟩ := step_produced hs
    have hp : p.run.Tracks m.program.rules n := by
      have := hr.step hm
      rwa [hs] at this
    obtain ⟨htracks, hlen, hle, hat⟩ := ih hp
    refine ⟨htracks, by rw [hlen, hsteps, List.length_cons]; omega, by omega, ?_⟩
    intro k q hq
    cases k with
    | zero =>
      obtain rfl := Option.some.inj hq
      obtain ⟨x, hx, hnat⟩ := hp.value
      rw [hsteps, Nat.add_sub_cancel] at hx
      refine ⟨⟨x, hx, hval ▸ hnat.num⟩, ?_, hsteps⟩
      rw [hp.last, hsteps, Nat.add_sub_cancel]
      rfl
    | succ k =>
      have := hat k q (by simpa using hq)
      rwa [hsteps, Nat.add_right_comm] at this

/-- A run from a positive seed prints a line for each number of the trajectory until the bound is
    reached or the trajectory ends. -/
theorem runFrom_spec {m : Machine} (hm : m.program.Valid) (hb : 0 < m.bound) (mode : Mode)
    {seed : Integer} (hc : seed.Canonical) {n : Nat} (hn : seed.toInt = n) (hpos : 0 < n) :
    ∃ (status : Status) (t : Transcript) (ps : List Production),
      m.runFrom mode seed = .ok (status, t) ∧ t.run.Tracks m.program.rules n ∧
      0 < t.run.steps ∧ t.run.steps ≤ m.bound ∧ ps.length = t.run.steps ∧
      t.lines.toList = ps.map (m.productionLine mode) ∧
      (∀ (k : Nat) (p : Production), ps[k]? = some p → p.At m.program.rules n k) ∧
      (status = .boundReached ∧ t.run.steps = m.bound ∨
        status = .halted ∧ t.run.steps < m.bound ∧
          m.program.rules.orbit n t.run.steps = none) := by
  have htracks : Run.Tracks m.program.rules n { value := .ofInteger seed } := .start hc hn
  obtain ⟨status, t, ps, r, notes, hrunFrom, hps, hrun, hend, hlines, -⟩ :=
    m.runFrom_produces mode (show 0 < seed.toInt by omega)
  obtain ⟨hr, hlen, hle, hat⟩ := hps.tracks hm htracks
  obtain ⟨hsteps, h0, hcases⟩ := hr.ended hm hb hrun hend
  have hfinal : t.run.Tracks m.program.rules n := by
    have := hr.step hm
    rwa [hend] at this
  have hlen : ps.length = r.steps := by rw [hlen]; exact (Nat.zero_add _).symm
  refine ⟨status, t, ps, hrunFrom, hfinal, ?_⟩
  rw [hsteps]
  refine ⟨h0, hle (Nat.zero_le _), hlen, hlines, ?_, ?_⟩
  · intro k p hp
    have := hat k p hp
    rwa [Nat.zero_add] at this
  · rcases hcases with ⟨rfl, hge, -⟩ | ⟨rfl, hlt, hnone, -⟩
    · exact .inl ⟨rfl, Nat.le_antisymm (hle (Nat.zero_le _)) hge⟩
    · exact .inr ⟨rfl, hlt, hnone⟩

/-- Productions have the numbers of the trajectory, all of them. -/
theorem values_eq_map {rules : Rules} {n : Nat} {ps : List Production}
    (h : ∀ (k : Nat) (p : Production), ps[k]? = some p → p.At rules n k) :
    rules.values n ps.length = ps.map fun p => p.value.toInt.toNat := by
  apply Rules.values_length_eq_map
  intro k p hp
  obtain ⟨x, hx, -, hv⟩ := (h k p hp).value
  rw [hx, hv, Int.toNat_natCast]

/-- The lines of a run without trace are the numerals of the trajectory. -/
theorem map_productionLine_values {m : Machine} {rules : Rules} {n : Nat} {ps : List Production}
    (h : ∀ (k : Nat) (p : Production), ps[k]? = some p → p.At rules n k) :
    ps.map (m.productionLine .values) = (rules.values n ps.length).map Nat.repr := by
  rw [values_eq_map h, List.map_map]
  apply List.map_congr_left
  intro p hp
  obtain ⟨k, hk⟩ := List.mem_iff_getElem?.1 hp
  obtain ⟨x, -, hc, hv⟩ := (h k p hk).value
  rw [Function.comp_apply, hv, Int.toNat_natCast]
  exact Integer.toString_eq_repr hc hv

end Fractran.Machine

namespace Fractran

/-- A program pushed from pairs of positive integers runs as the rules of these pairs say. With
    any bound and from any positive seed it prints the numerals of the trajectory, one a line,
    until the bound is reached or no rule applies; then the value is the last number over one, the
    steps are counted, and the last index is that of the rule that made the last number. -/
theorem run_prints_trajectory {pairs : List (Integer × Integer)}
    (hpairs : ∀ q ∈ pairs, Program.PositivePair q) {seed : Integer} (hc : seed.Canonical)
    (hpos : 0 < seed.toInt) {bound : Nat} (hb : 1 ≤ bound) (level : Level) :
    ∃ p m, Program.pushAll ⟨[]⟩ pairs = .ok p ∧ Machine.make p bound level = .ok m ∧
      let rules : Rules := pairs.map Program.pairRule
      let n := seed.toInt.toNat
      let reply := (Session.ofMachine m).call (.run .values seed)
      ∃ k x status lines, 1 ≤ k ∧ k ≤ bound ∧
        rules.orbit n (k - 1) = some x ∧
        (status = .boundReached ∧ k = bound ∨
          status = .halted ∧ k < bound ∧ rules.orbit n k = none) ∧
        reply.answer = .ok (.finished status lines) ∧
        lines = (rules.values n k).map Nat.repr ∧ (rules.values n k).length = k ∧
        linesText lines = String.join ((rules.values n k).map fun y => Nat.repr y ++ "\n") ∧
        reply.session.value.IsNat x ∧ reply.session.steps = k ∧
        reply.session.last = rules.maker n (k - 1) := by
  obtain ⟨p, hp, hvalid, hsame⟩ := Program.pushAll_valid hpairs
  have hmake : Machine.make p bound level = .ok ⟨p, bound, level == .debug⟩ :=
    Machine.make_eq_ok_iff.2 ⟨by omega, fun f hf => (hvalid f hf).2, rfl⟩
  refine ⟨p, _, hp, hmake, ?_⟩
  have hn : seed.toInt = seed.toInt.toNat := (Int.toNat_of_nonneg (by omega)).symm
  obtain ⟨status, t, ps, hrun, htracks, h0, hle, hlen, hlines, hat, hcases⟩ :=
    Machine.runFrom_spec (m := ⟨p, bound, level == .debug⟩) hvalid hb .values hc hn (by omega)
  obtain ⟨x, hx, hnat⟩ := htracks.value
  have hvalues : (p.rules.values seed.toInt.toNat t.run.steps).length = t.run.steps := by
    rw [← hlen, Machine.values_eq_map hat, List.length_map]
  simp only [Rules.orbit_congr hsame, Rules.maker_congr hsame, Rules.values_congr hsame]
  refine ⟨t.run.steps, x, status, t.lines.toList, h0, hle, hx, hcases, ?_, ?_, hvalues, ?_, ?_⟩
  · simp only [Session.call, Session.ofMachine, hrun]
  · rw [hlines, Machine.map_productionLine_values hat, hlen]
  · rw [hlines, Machine.map_productionLine_values hat, hlen, linesText, List.map_map]
    rfl
  · simp only [Session.call, Session.ofMachine, hrun]
    exact ⟨hnat, rfl, htracks.last⟩

/-- A pair that is not in lowest terms: `6/4` makes `6` and then `9` of `4`, and nothing of `9`. -/
theorem run_prints_trajectory_six_fourths :
    ∃ p m, Program.pushAll ⟨[]⟩ [(.ofInt64 6, .ofInt64 4)] = .ok p ∧
      Machine.make p (5 : Nat) .info = .ok m ∧
      ((Session.ofMachine m).call (.run .values (.ofInt64 4))).answer =
        .ok (.finished .halted ["4", "6", "9"]) := by
  have hpair : ∀ q ∈ [(Integer.ofInt64 6, Integer.ofInt64 4)], Program.PositivePair q := by
    intro q hq
    obtain rfl := List.mem_singleton.1 hq
    exact ⟨⟨Integer.canonical_ofInt64 6, by decide⟩, Integer.canonical_ofInt64 4, by decide⟩
  obtain ⟨p, m, hp, hm, k, x, status, lines, h1, -, hx, hend, hanswer, hlines, -⟩ :=
    run_prints_trajectory hpair (Integer.canonical_ofInt64 4) (by decide)
      (show 1 ≤ 5 by decide) .info
  have hle : k - 1 ≤ 2 := by
    apply Nat.le_of_not_lt
    intro hlt
    exact absurd (Rules.orbit_isSome_of_le hlt (Option.isSome_iff_exists.2 ⟨x, hx⟩)) (by decide)
  rcases hend with ⟨-, rfl⟩ | ⟨rfl, -, hnone⟩
  · exact absurd hle (by decide)
  · have htwo : (Rules.orbit ([(Integer.ofInt64 6, Integer.ofInt64 4)].map Program.pairRule)
        (Integer.ofInt64 4).toInt.toNat 2).isSome := by decide
    have hk : k = 3 := by
      apply Nat.le_antisymm (by omega)
      apply Nat.le_of_not_lt
      intro hlt
      have hsome := Rules.orbit_isSome_of_le (Nat.le_of_lt_succ hlt) htwo
      rw [hnone] at hsome
      cases hsome
    subst hk
    refine ⟨p, m, hp, hm, ?_⟩
    rw [hanswer, hlines]
    rfl

end Fractran
