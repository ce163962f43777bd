/-
  What the bound does to a run.

  `Loop` is the loop around a step with nothing that limits it: it goes on as long as steps yield
  values. It ends for every machine, after one step more than it prints lines (`loop_of_runFrom`),
  and in one way only (`Loop.unique`). Where it ends is a fact about the trajectory
  (`Rules.Stops`), and so runs with two bounds print the same lines as far as both go
  (`Rules.Stops.eq_min`, `lines_eq_take`). What a run leaves follows where the trajectory is known
  to end (`call_run_of_end`) or not to end (`call_run_of_unending`).
-/
import Fractran.Proofs.Machine.Session

namespace Fractran

/-! ## The loop -/

namespace Machine

/-- Stepping from a run, as often as `calls` says, prints the lines and ends with the status. -/
inductive Loop (m : Machine) (mode : Mode) : Run → Nat → List String → Status → Run → Prop where
  | stop {r r' : Run} {status : Status} {notes : List String}
      (hs : m.step r = ⟨.ended status, r', notes⟩) : Loop m mode r 1 [] status r'
  | print {r r₁ r' : Run} {v : Integer} {notes : List String} {calls : Nat} {lines : List String}
      {status : Status} (hs : m.step r = ⟨.produced v, r₁, notes⟩)
      (h : Loop m mode r₁ calls lines status r') :
      Loop m mode r (calls + 1) (m.line mode r₁ v :: lines) status r'

theorem Loop.unique {m : Machine} {mode : Mode} {r r₁ r₂ : Run} {calls₁ calls₂ : Nat}
    {lines₁ lines₂ : List String} {status₁ status₂ : Status}
    (h₁ : m.Loop mode r calls₁ lines₁ status₁ r₁) (h₂ : m.Loop mode r calls₂ lines₂ status₂ r₂) :
    calls₁ = calls₂ ∧ lines₁ = lines₂ ∧ status₁ = status₂ ∧ r₁ = r₂ := by
  induction h₁ generalizing calls₂ lines₂ with
  | stop hs₁ =>
    cases h₂ with
    | stop hs₂ =>
      rw [hs₁] at hs₂
      cases hs₂
      exact ⟨rfl, rfl, rfl, rfl⟩
    | print hs₂ =>
      rw [hs₁] at hs₂
      cases hs₂
  | print hs₁ _ ih =>
    cases h₂ with
    | stop hs₂ =>
      rw [hs₁] at hs₂
      cases hs₂
    | print hs₂ h₂ =>
      rw [hs₁] at hs₂
      cases hs₂
      obtain ⟨rfl, rfl, rfl, rfl⟩ := ih h₂
      exact ⟨rfl, rfl, rfl, rfl⟩

/-- The run that a loop leaves is marked as halted exactly if the status says so. -/
theorem Loop.halted_iff {m : Machine} {mode : Mode} {r r' : Run} {calls : Nat}
    {lines : List String} {status : Status} (h : m.Loop mode r calls lines status r') :
    r'.halted = true ↔ status = .halted := by
  induction h with
  | @stop r r' status notes hs =>
    have ht := hs ▸ m.takes_step r
    cases ht with
    | stay hh => simpa using hh
    | bound hh => simp [hh]
    | halt => simp
  | print _ _ ih => exact ih

/-- Steps that yield values, and then one that does not, are a loop. -/
theorem Produces.loop {m : Machine} (mode : Mode) {r r₁ r' : Run} {ps : List Production}
    (h : m.Produces r ps r₁) {status : Status} {notes : List String}
    (hs : m.step r₁ = ⟨.ended status, r', notes⟩) :
    m.Loop mode r (ps.length + 1) (ps.map (m.productionLine mode)) status r' := by
  induction h with
  | done r => exact .stop hs
  | more hstep _ ih => exact .print hstep (ih hs)

/-- A run from a positive seed is a loop, so it ends. -/
theorem loop_of_runFrom {m : Machine} {mode : Mode} {seed : Integer} {status : Status}
    {t : Transcript} (hpos : 0 < seed.toInt) (ht : m.runFrom mode seed = .ok (status, t)) :
    m.Loop mode { value := .ofInteger seed } (t.lines.toList.length + 1) t.lines.toList status
      t.run := by
  obtain ⟨status', t', ps, r, notes, ht', hps, -, hend, hlines, -⟩ := m.runFrom_produces mode hpos
  cases ht.symm.trans ht'
  have hloop := hps.loop mode hend
  rwa [← hlines, ← List.length_map (m.productionLine mode), ← hlines] at hloop

end Machine

/-! ## Where a run stops -/

/-- A run with bound `b` along the trajectory stops after `k` numbers: at the bound, or before it
    at the end of the trajectory. -/
structure Rules.Stops (rules : Rules) (n b k : Nat) (status : Status) : Prop where
  pos : 0 < k
  reached : (rules.orbit n (k - 1)).isSome
  why : status = .boundReached ∧ k = b ∨ status = .halted ∧ k < b ∧ rules.orbit n k = none

namespace Rules

theorem Stops.le {rules : Rules} {n b k : Nat} {status : Status} (h : rules.Stops n b k status) :
    k ≤ b := by
  rcases h.why with ⟨-, hk⟩ | ⟨-, hk, -⟩ <;> omega

theorem Stops.boundReached_iff {rules : Rules} {n b k : Nat} {status : Status}
    (h : rules.Stops n b k status) : status = .boundReached ↔ k = b := by
  rcases h.why with ⟨rfl, hk⟩ | ⟨rfl, hk, -⟩
  · simpa using hk
  · simp only [reduceCtorEq, false_iff]
    omega

theorem Stops.halted_iff {rules : Rules} {n b k : Nat} {status : Status}
    (h : rules.Stops n b k status) : status = .halted ↔ k < b := by
  rcases h.why with ⟨rfl, hk⟩ | ⟨rfl, hk, -⟩
  · simp only [reduceCtorEq, false_iff]
    omega
  · simpa using hk

theorem lt_of_orbit_none {rules : Rules} {n j k : Nat} (hj : (rules.orbit n j).isSome)
    (hk : rules.orbit n k = none) : j < k := by
  apply Nat.lt_of_not_le
  intro hle
  have := orbit_isSome_of_le hle hj
  rw [hk] at this
  cases this

/-- A smaller bound cuts the run short, or changes nothing. -/
theorem Stops.eq_min {rules : Rules} {n b b' k k' : Nat} {status status' : Status}
    (h : rules.Stops n b k status) (h' : rules.Stops n b' k' status') (hb : b ≤ b') :
    k = min b k' ∧ (status = .halted ↔ status' = .halted ∧ k' < b) := by
  have hpos := h.pos
  have hpos' := h'.pos
  rcases h.why with ⟨rfl, rfl⟩ | ⟨rfl, hlt, hnone⟩
  · rcases h'.why with ⟨rfl, rfl⟩ | ⟨rfl, hlt', hnone'⟩
    · exact ⟨by omega, by simp⟩
    · have := lt_of_orbit_none h.reached hnone'
      exact ⟨by omega, by simp; omega⟩
  · have := lt_of_orbit_none h'.reached hnone
    rcases h'.why with ⟨rfl, rfl⟩ | ⟨rfl, hlt', hnone'⟩
    · omega
    · have := lt_of_orbit_none h.reached hnone'
      exact ⟨by omega, by simp; omega⟩

end Rules

namespace Machine

/-- The line of a number depends on the program alone, not on the bound of the machine. -/
theorem productionLine_congr {m m' : Machine} (hprogram : m.program = m'.program) (mode : Mode)
    {rules : Rules} {n k : Nat} {p p' : Production} (h : p.At rules n k) (h' : p'.At rules n k) :
    m.productionLine mode p = m'.productionLine mode p' := by
  obtain ⟨x, hx, hc, hv⟩ := h.value
  obtain ⟨x', hx', hc', hv'⟩ := h'.value
  obtain rfl : x = x' := Option.some.inj (hx.symm.trans hx')
  have hvalue : p.value = p'.value := Integer.eq_of_toInt_eq hc hc' (hv.trans hv'.symm)
  have hlast : p.run.last = p'.run.last := h.last.trans h'.last.symm
  unfold productionLine line
  rw [hvalue, hlast, hprogram]

/-- Of two machines for one program the one prints the first lines of the other. -/
theorem lines_eq_take {m m' : Machine} (hprogram : m.program = m'.program) (mode : Mode)
    {rules : Rules} {n : Nat} {ps ps' : List Production}
    (h : ∀ (k : Nat) (p : Production), ps[k]? = some p → p.At rules n k)
    (h' : ∀ (k : Nat) (p : Production), ps'[k]? = some p → p.At rules n k)
    (hlen : ps.length ≤ ps'.length) :
    ps.map (m.productionLine mode) =
      (ps'.map (m'.productionLine mode)).take ps.length := by
  apply List.ext_getElem
  · simp [hlen]
  · intro k hk hk'
    have hk : k < ps.length := by simpa using hk
    rw [List.getElem_map, List.getElem_take, List.getElem_map]
    exact productionLine_congr hprogram mode (h k _ (List.getElem?_eq_getElem hk))
      (h' k _ (List.getElem?_eq_getElem (by omega)))

end Machine

namespace Session

/-- A run to the end that obeys the bound `b` and leaves the session `after`: the loop takes one
    step more than it prints lines, prints as many lines as the session counts steps, and tells
    by its status whether this is the bound. -/
structure ObeysBound (m : Machine) (b : Int) (mode : Mode) (seed : Integer) (status : Status)
    (lines : List String) (after : Session) : Prop where
  loop : ∀ calls lines' status' r, m.Loop mode { value := .ofInteger seed } calls lines' status' r ↔
    calls = after.steps + 1 ∧ lines' = lines ∧ status' = status ∧ after.run = some r
  lines : lines.length = after.steps
  steps_le : (after.steps : ℤ) ≤ b
  boundReached : status = .boundReached ↔ (after.steps : ℤ) = b
  halted : status = .halted ↔ (after.steps : ℤ) < b
  isHalted : after.halted = true ↔ status = .halted

/-- A loop that stops where the bound lets it obeys the bound. -/
theorem obeysBound {m : Machine} {b : Int} (hb : 0 < b) {mode : Mode} {seed : Integer}
    {status : Status} {lines : List String} {r : Run} (hlen : lines.length = r.steps)
    (hloop : m.Loop mode { value := .ofInteger seed } (lines.length + 1) lines status r)
    {rules : Rules} {n : Nat} (hstops : rules.Stops n b.toNat r.steps status) :
    ObeysBound m b mode seed status lines ⟨m, some r⟩ where
  loop := by
    intro calls lines' status' r'
    constructor
    · intro h
      obtain ⟨rfl, rfl, rfl, rfl⟩ := h.unique hloop
      exact ⟨congrArg (· + 1) hlen, rfl, rfl, rfl⟩
    · rintro ⟨rfl, rfl, rfl, hr⟩
      obtain rfl := Option.some.inj hr
      rwa [hlen] at hloop
  lines := hlen
  steps_le := by
    have hle := hstops.le
    show (r.steps : ℤ) ≤ b
    omega
  boundReached := by
    rw [hstops.boundReached_iff]
    show r.steps = b.toNat ↔ (r.steps : ℤ) = b
    omega
  halted := by
    rw [hstops.halted_iff]
    show r.steps < b.toNat ↔ (r.steps : ℤ) < b
    omega
  isHalted := hloop.halted_iff

/-- A run to the end obeys the bound of its machine, and its lines belong to the numbers of the
    trajectory up to where the bound lets it stop. -/
theorem call_run_spec {p : Program} (hp : p.Reduced) {b : Int} {level : Level} {s : Session}
    (hs : Machine.make p b level = .ok s.machine) {seed : Integer} (hc : seed.Canonical)
    (hpos : 0 < seed.toInt) (mode : Mode) :
    ∃ (status : Status) (ps : List Machine.Production) (after : Session) (notes : List String),
      s.call (.run mode seed) =
        ⟨.ok (.finished status (ps.map (s.machine.productionLine mode))), after, notes⟩ ∧
      ObeysBound s.machine b mode seed status (ps.map (s.machine.productionLine mode)) after ∧
      (∀ (k : Nat) (q : Machine.Production), ps[k]? = some q →
        q.At p.rules seed.toInt.toNat k) ∧
      p.rules.Stops seed.toInt.toNat b.toNat ps.length status := by
  obtain ⟨rfl, hbound, hb, hv⟩ := Machine.make_spec hp hs
  have hn : seed.toInt = seed.toInt.toNat := (Int.toNat_of_nonneg (by omega)).symm
  obtain ⟨status, t, ps, hrun, htracks, h0, -, hlen, hlines, hat, hwhy⟩ :=
    Machine.runFrom_spec hv hb mode hc hn (by omega)
  rw [show s.machine.bound = b.toNat by omega] at hwhy
  obtain ⟨x, hx, -⟩ := htracks.value
  have hstops : s.machine.program.rules.Stops seed.toInt.toNat b.toNat t.run.steps status :=
    ⟨h0, Option.isSome_iff_exists.2 ⟨x, hx⟩, hwhy⟩
  have hloop := Machine.loop_of_runFrom hpos hrun
  rw [hlines] at hloop
  refine ⟨status, ps, ⟨s.machine, some t.run⟩, t.notes.toList, ?_, ?_, hat, hlen ▸ hstops⟩
  · simp only [call, hrun, hlines]
  · exact obeysBound (by omega) (by rw [List.length_map, hlen]) hloop hstops

/-- A run whose bound lies beyond the end of the trajectory halts there, at its last number. -/
theorem call_run_of_end {p : Program} (hp : p.Reduced) {b : Int} {level : Level} {s : Session}
    (hs : Machine.make p b level = .ok s.machine) {seed : Integer} (hc : seed.Canonical) {n : Nat}
    (hn : seed.toInt = n) (hpos : 0 < n) (mode : Mode) {k x : Nat}
    (hx : p.rules.orbit n k = some x) (hend : p.rules.orbit n (k + 1) = none)
    (hb : (k + 1 : ℤ) < b) :
    ∃ (lines : List String) (after : Session) (notes : List String),
      s.call (.run mode seed) = ⟨.ok (.finished .halted lines), after, notes⟩ ∧
      after.value.IsNat x ∧ after.steps = k + 1 := by
  obtain ⟨rfl, hbound, hb0, hv⟩ := Machine.make_spec hp hs
  obtain ⟨status, t, ps, hrun, htracks, h0, hle, -, -, -, hwhy⟩ :=
    Machine.runFrom_spec hv hb0 mode hc hn hpos
  obtain ⟨y, hy, hnat⟩ := htracks.value
  -- the run does not go beyond the end, so it is not the bound that stops it
  have hlt := Rules.lt_of_orbit_none (Option.isSome_iff_exists.2 ⟨y, hy⟩) hend
  rcases hwhy with ⟨-, heq⟩ | ⟨rfl, -, hnone⟩
  · omega
  · have hgt := Rules.lt_of_orbit_none (Option.isSome_iff_exists.2 ⟨x, hx⟩) hnone
    have hsteps : t.run.steps = k + 1 := by omega
    rw [hsteps, Nat.add_sub_cancel, hx] at hy
    obtain rfl := Option.some.inj hy
    exact ⟨t.lines.toList, ⟨s.machine, some t.run⟩, t.notes.toList, by simp only [call, hrun],
      hnat, hsteps⟩

/-- A run along a trajectory without end stops at the bound and prints the numbers up to it. -/
theorem call_run_of_unending {p : Program} (hp : p.Reduced) {b : Int} {level : Level}
    {s : Session} (hs : Machine.make p b level = .ok s.machine) {seed : Integer}
    (hc : seed.Canonical) (hpos : 0 < seed.toInt) {x : Nat → Nat}
    (hx : ∀ k, p.rules.orbit seed.toInt.toNat k = some (x k)) :
    ∃ (after : Session) (notes : List String),
      s.call (.run .values seed) =
        ⟨.ok (.finished .boundReached ((List.range b.toNat).map fun k => (x k).repr)), after,
          notes⟩ := by
  obtain ⟨status, ps, after, notes, hrun, -, hat, hstops⟩ := call_run_spec hp hs hc hpos .values
  rcases hstops.why with ⟨rfl, hlen⟩ | ⟨-, -, hnone⟩
  · refine ⟨after, notes, ?_⟩
    have horbit : p.rules.orbit seed.toInt.toNat = fun k => some (x k) := funext hx
    rw [hrun, Machine.map_productionLine_values hat, hlen, Rules.values, horbit,
      List.filterMap_eq_map', List.map_map]
    rfl
  · rw [hx] at hnone
    cases hnone

/-- Runs of one program from one seed with bounds `b` and `b'`, printing values or a trace: each
    ends by itself, after one step more than it counts, with as many lines as steps and at most
    as many as the bound; its status tells whether that is the bound or less. The smaller bound
    gives the first lines of the larger one, and halts iff the larger one halts below it. -/
theorem run_obeys_bound {p : Program} (hp : p.Reduced) {b b' : Int} {level level' : Level}
    {s s' : Session} (hs : Machine.make p b level = .ok s.machine)
    (hs' : Machine.make p b' level' = .ok s'.machine) (hb : b ≤ b') {seed : Integer}
    (hc : seed.Canonical) (hpos : 0 < seed.toInt) (mode : Mode) :
    ∃ status lines after notes status' lines' after' notes',
      s.call (.run mode seed) = ⟨.ok (.finished status lines), after, notes⟩ ∧
      s'.call (.run mode seed) = ⟨.ok (.finished status' lines'), after', notes'⟩ ∧
      ObeysBound s.machine b mode seed status lines after ∧
      ObeysBound s'.machine b' mode seed status' lines' after' ∧
      lines = lines'.take (min b.toNat lines'.length) ∧
      (status = .halted ↔ status' = .halted ∧ (lines'.length : ℤ) < b) := by
  obtain ⟨status, ps, after, notes, hrun, hobeys, hat, hstops⟩ :=
    call_run_spec hp hs hc hpos mode
  obtain ⟨status', ps', after', notes', hrun', hobeys', hat', hstops'⟩ :=
    call_run_spec hp hs' hc hpos mode
  obtain ⟨hmin, hiff⟩ := hstops.eq_min hstops' (by omega)
  have hprogram : s.machine.program = s'.machine.program :=
    (Machine.make_spec hp hs).1.trans (Machine.make_spec hp hs').1.symm
  refine ⟨status, _, after, notes, status', _, after', notes', hrun, hrun', hobeys, hobeys',
    ?_, ?_⟩
  · rw [List.length_map, ← hmin]
    exact Machine.lines_eq_take hprogram mode hat hat' (by omega)
  · rw [List.length_map, hiff, ← Int.lt_toNat]

/-- From `2` the fraction `3/2` makes `3` and nothing more. With bound `2` this is the bound, with
    bound `5` it is a halt, and the lines are the same. -/
theorem run_obeys_bound_three_halves :
    ∃ s s' after after' : Session,
      Machine.make ⟨[⟨.ofInt64 3, .ofInt64 2⟩]⟩ 2 .info = .ok s.machine ∧
      Machine.make ⟨[⟨.ofInt64 3, .ofInt64 2⟩]⟩ 5 .info = .ok s'.machine ∧
      ObeysBound s.machine 2 .values (.ofInt64 2) .boundReached ["2", "3"] after ∧
      ObeysBound s'.machine 5 .values (.ofInt64 2) .halted ["2", "3"] after' := by
  have hs := make_three_halves (b := 2) (by decide)
  have hs' := make_three_halves (b := 5) (by decide)
  obtain ⟨status, lines, after, notes, status', lines', after', notes', hrun, hrun', hobeys,
    hobeys', -⟩ := run_obeys_bound reduced_three_halves hs hs' (by decide)
    (Integer.canonical_ofInt64 2) (by decide) .values
  have hanswer : ((ofMachine ⟨⟨[⟨.ofInt64 3, .ofInt64 2⟩]⟩, 2, false⟩).call
      (.run .values (.ofInt64 2))).answer = .ok (.finished .boundReached ["2", "3"]) := by
    decide +kernel
  have hanswer' : ((ofMachine ⟨⟨[⟨.ofInt64 3, .ofInt64 2⟩]⟩, 5, false⟩).call
      (.run .values (.ofInt64 2))).answer = .ok (.finished .halted ["2", "3"]) := by decide +kernel
  obtain ⟨rfl, rfl⟩ : status = .boundReached ∧ lines = ["2", "3"] := by
    simpa using (congrArg Reply.answer hrun).symm.trans hanswer
  obtain ⟨rfl, rfl⟩ : status' = .halted ∧ lines' = ["2", "3"] := by
    simpa using (congrArg Reply.answer hrun').symm.trans hanswer'
  exact ⟨_, _, after, after', hs, hs', hobeys, hobeys'⟩

end Session

end Fractran
