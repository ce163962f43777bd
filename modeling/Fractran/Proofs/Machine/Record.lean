/-
  What the log tells of a run.

  The log of a machine that notes its steps and the trace that the machine prints are two records
  of one run. What is in brackets on a line of the trace can be read off the line
  (`bracketed_line`), and the note of the step says the same (`Produces.record`). A machine that was
  made at another level notes nothing, whatever becomes of the log (`entries_of_quiet`), and the
  level changes neither answers nor runs (`act_alike`).
-/
import Fractran.Machine.Logged
import Fractran.Proofs.Machine.History
import Fractran.Proofs.Machine.Trace

namespace Fractran

/-! ## Brackets -/

/-- What stands between brackets, if the text is in brackets. -/
def unbracket? : List Char → Option (List Char)
  | '[' :: rest => if rest.getLast? = some ']' then some rest.dropLast else none
  | _ => none

/-- The fields behind the tabs of a line that are in brackets: where they stand and what is in the
    brackets. -/
def bracketed (line : String) : List (Nat × String) :=
  ((line.toList.splitOn '\t').drop 1).zipIdx.filterMap fun q =>
    (unbracket? q.1).map fun text => (q.2, .ofList text)

theorem unbracket?_entry (f : Fraction) (applied : Bool) :
    unbracket? (Program.entry f applied).toList = if applied then some f.text else none := by
  have htext : f.toString.toList = f.text := String.toList_ofList
  cases applied with
  | true =>
    have hentry : (Program.entry f true).toList = '[' :: (f.text ++ [']']) := by
      simp [Program.entry, htext]
    rw [hentry, unbracket?, List.getLast?_concat, if_pos rfl, List.dropLast_concat]
    rfl
  | false =>
    have hentry : (Program.entry f false).toList = f.text := by simp [Program.entry, htext]
    rw [hentry]
    unfold unbracket?
    split
    next rest heq =>
      exfalso
      have hmem : '[' ∈ f.text := by rw [heq]; exact List.mem_cons_self
      obtain h | h | h := Source.mem_text_fraction hmem
      · cases h
      · cases h
      · cases h
    next => rfl

/-- Fields behind tabs can be told apart again. -/
theorem splitOn_tabs {first : List Char} (hfirst : '\t' ∉ first) {fields : List (List Char)}
    (h : ∀ field ∈ fields, '\t' ∉ field) :
    (first ++ fields.flatMap fun field => '\t' :: field).splitOn '\t' = first :: fields := by
  have hjoin : (first ++ fields.flatMap fun field => '\t' :: field) =
      List.intercalate ['\t'] (first :: fields) := by
    clear hfirst h
    induction fields generalizing first with
    | nil => simp
    | cons field fields ih =>
      rw [List.flatMap_cons, List.cons_append, ih, List.intercalate_cons_cons]
      simp
  rw [hjoin, List.splitOn_intercalate]
  · exact List.forall_mem_cons.2 ⟨hfirst, h⟩
  · exact List.cons_ne_nil _ _

theorem tab_not_mem_entry (f : Fraction) (applied : Bool) :
    '\t' ∉ (Program.entry f applied).toList := by
  have htext : f.toString.toList = f.text := String.toList_ofList
  have hplain : '\t' ∉ f.text := by
    intro hmem
    obtain h | h | h := Source.mem_text_fraction hmem <;> cases h
  cases applied with
  | true => simp [Program.entry, htext, hplain]
  | false => simp [Program.entry, htext, hplain]

/-- Of entries in a row the one at the mark is in brackets. -/
theorem bracketed_entries (fs : List Fraction) (mark : Option Nat) (k : Nat) :
    (((fs.zipIdx k).map fun q => (Program.entry q.1 (mark == some q.2)).toList).zipIdx k).filterMap
      (fun q => (unbracket? q.1).map fun text => (q.2, String.ofList text)) =
    (fs.zipIdx k).filterMap fun q =>
      if mark == some q.2 then some (q.2, q.1.toString) else none := by
  induction fs generalizing k with
  | nil => rfl
  | cons f fs ih =>
    rw [List.zipIdx_cons, List.map_cons, List.zipIdx_cons, List.filterMap_cons, List.filterMap_cons,
      ih, unbracket?_entry]
    cases mark == some k <;> rfl

theorem filterMap_zipIdx_mark (fs : List Fraction) (i k : Nat) :
    ((fs.zipIdx k).filterMap fun q =>
      if some (k + i) == some q.2 then some (q.2, q.1.toString) else none) =
    fs[i]?.toList.map fun f => (k + i, f.toString) := by
  induction fs generalizing i k with
  | nil => rfl
  | cons f fs ih =>
    rw [List.zipIdx_cons, List.filterMap_cons]
    cases i with
    | zero =>
      have hlater : ∀ g j, (g, j) ∈ fs.zipIdx (k + 1) → ¬ k = j := by
        intro g j hmem
        have hle : k + 1 ≤ j := List.le_snd_of_mem_zipIdx hmem
        omega
      simpa using hlater
    | succ i =>
      have hnext := ih i (k + 1)
      rw [show k + 1 + i = k + (i + 1) by omega] at hnext
      rw [hnext]
      simp

namespace Program

/-- The index and the text of the fraction at a mark. -/
def marked (p : Program) (mark : Option Nat) : List (Nat × String) :=
  mark.toList.flatMap fun i => p.fractions[i]?.toList.map fun f => (i, f.toString)

theorem marked_eq (p : Program) (mark : Option Nat) :
    (p.fractions.zipIdx.filterMap fun q =>
      if mark == some q.2 then some (q.2, q.1.toString) else none) = p.marked mark := by
  cases mark with
  | none => simp [marked]
  | some i =>
    have hmark := filterMap_zipIdx_mark p.fractions i 0
    rw [Nat.zero_add] at hmark
    rw [hmark]
    simp [marked]

theorem marked_of_getElem? {p : Program} {i : Nat} {f : Fraction} (h : p.fractions[i]? = some f) :
    p.marked (some i) = [(i, f.toString)] := by
  simp [marked, h]

end Program

/-- What is in brackets on a line of a trace is the fraction that was applied last. -/
theorem Machine.bracketed_line (m : Machine) (r : Run) (v : Integer) :
    bracketed (m.line .trace r v) = m.program.marked r.last := by
  have hline : (m.line .trace r v).toList = (v.toString.toList ++ ":".toList) ++
      (m.program.fractions.zipIdx.map fun q =>
        (Program.entry q.1 (r.last == some q.2)).toList).flatMap fun field => '\t' :: field := by
    rw [line, String.toList_append, String.toList_append, Program.entries, String.toList_join,
      List.flatMap_map, List.flatMap_map]
    simp only [String.toList_append]
    rfl
  rw [bracketed, hline, splitOn_tabs (Source.tab_not_mem_numeral v), List.drop_one, List.tail_cons,
    bracketed_entries, Program.marked_eq]
  rw [List.forall_mem_map]
  exact fun q _ => tab_not_mem_entry _ _

/-! ## Notes -/

theorem Program.getElem?_of_next? {p : Program} {value : Fraction} {a : Application}
    (h : p.next? value = some a) : p.fractions[a.index]? = some a.fraction := by
  rw [next?, findSome?_zipIdx] at h
  obtain ⟨i, -, h⟩ := Option.bind_eq_some_iff.1 h
  obtain ⟨f, hf, rfl⟩ := Option.map_eq_some_iff.1 h
  rw [Nat.zero_add]
  exact hf

/-- How the log tells that a fraction was applied: the step, and the index and the text of the
    fraction. -/
def appliedMessage (step : Nat) (applied : Nat × String) : String :=
  "Step " ++ step.repr ++ ": applied " ++ applied.2 ++ " (#" ++ applied.1.repr ++ ")"

namespace Machine

/-- After the seed a machine that notes its steps notes for each number what is in brackets on
    its line, and nothing else. -/
theorem Produces.record {m : Machine} (hv : m.verbose = true) {r r' : Run}
    {ps : List Production} (h : m.Produces r ps r') (h0 : 0 < r.steps) :
    ∃ applied : List (Nat × String), r'.steps = r.steps + applied.length ∧
      (ps.map fun p => bracketed (m.productionLine .trace p)) = applied.map (fun a => [a]) ∧
      ps.flatMap Production.notes =
        (applied.zipIdx (r.steps + 1)).map fun q => appliedMessage q.2 q.1 := by
  induction h with
  | done r => exact ⟨[], rfl, rfl, rfl⟩
  | @more r r' p ps hs h ih =>
    obtain ⟨p, run, notes⟩ := p
    have ht := hs ▸ m.takes_step r
    cases ht with
    | seed _ _ hzero => omega
    | applied a _ _ _ ha =>
      obtain ⟨applied, hsteps, hbrackets, hnotes⟩ := ih (Nat.succ_pos _)
      have hfraction := Program.getElem?_of_next? ha
      refine ⟨(a.index, a.fraction.toString) :: applied, ?_, ?_, ?_⟩
      · simp only [hsteps, List.length_cons]
        omega
      · rw [List.map_cons, List.map_cons, hbrackets, productionLine, bracketed_line,
          Program.marked_of_getElem? hfraction]
      · rw [List.flatMap_cons, hnotes, List.zipIdx_cons, List.map_cons, hv]
        rfl

/-- A step that ends a running machine's run notes that no fraction applies, or nothing at the
    bound. -/
theorem ended_record {m : Machine} (hv : m.verbose = true) {r r' : Run} (hh : r.halted = false)
    {status : Status} {notes : List String} (hs : m.step r = ⟨.ended status, r', notes⟩) :
    r'.steps = r.steps ∧ notes = if status = .halted then [haltedNote r'.steps] else [] := by
  have ht := hs ▸ m.takes_step r
  cases ht with
  | stay h =>
    rw [hh] at h
    cases h
  | bound => exact ⟨rfl, rfl⟩
  | halt =>
    rw [hv]
    exact ⟨rfl, rfl⟩

/-- The first step yields the seed and notes nothing. -/
theorem step_first {m : Machine} (hb : 0 < m.bound) (value : Fraction) :
    m.step { value := value } = ⟨.produced value.num, { value := value, steps := 1 }, []⟩ := by
  rw [step, if_neg Bool.false_ne_true, if_neg (Nat.not_le.2 hb), if_pos rfl]

/-- The notes of a traced run: one for each line behind the first, and one if the run halts. -/
theorem runFrom_record {m : Machine} (hv : m.verbose = true) (hb : 0 < m.bound) {seed : Integer}
    (hpos : 0 < seed.toInt) :
    ∃ (status : Status) (t : Transcript) (applied : List (Nat × String)),
      m.runFrom .trace seed = .ok (status, t) ∧ t.run.steps = applied.length + 1 ∧
      t.lines.toList.map bracketed = [] :: applied.map (fun a => [a]) ∧
      t.notes.toList = ((applied.zipIdx 2).map fun q => appliedMessage q.2 q.1) ++
        if status = .halted then [haltedNote t.run.steps] else [] := by
  obtain ⟨status, t, ps, r, notes, hrunFrom, hps, hrun, hend, hlines, hnotes⟩ :=
    m.runFrom_produces .trace hpos
  obtain ⟨hsteps, hclosing⟩ := ended_record hv hrun hend
  have hfirst := step_first hb (.ofInteger seed)
  cases hps with
  | done =>
    rw [hfirst] at hend
    cases hend
  | @more _ _ p ps hs hps =>
    obtain ⟨v, run, first⟩ := p
    rw [hfirst] at hs
    cases hs
    obtain ⟨applied, hcount, hbrackets, hrecord⟩ := hps.record hv Nat.one_pos
    refine ⟨status, t, applied, hrunFrom, ?_, ?_, ?_⟩
    · rw [hsteps, hcount, Nat.add_comm]
    · rw [hlines, List.map_cons, List.map_cons, productionLine, bracketed_line, List.map_map]
      exact congrArg (List.cons _) hbrackets
    · rw [hnotes, List.flatMap_cons, hrecord, hclosing]
      rfl

/-! ## Machines that note nothing -/

theorem step_notes_of_quiet {m : Machine} (hv : m.verbose = false) (r : Run) :
    (m.step r).notes = [] := by
  cases hs : m.step r with
  | mk outcome run notes =>
    have ht := hs ▸ m.takes_step r
    cases ht with
    | stay => rfl
    | bound => rfl
    | seed => rfl
    | applied => rw [hv]; rfl
    | halt => rw [hv]; rfl

theorem Produces.notes_of_quiet {m : Machine} (hv : m.verbose = false) {r r' : Run}
    {ps : List Production} (h : m.Produces r ps r') : ps.flatMap Production.notes = [] := by
  induction h with
  | done => rfl
  | @more r _ _ _ hs _ ih =>
    have hnotes := step_notes_of_quiet hv r
    rw [hs] at hnotes
    rw [List.flatMap_cons, ih, List.append_nil]
    exact hnotes

theorem runFrom_notes_of_quiet {m : Machine} (hv : m.verbose = false) {mode : Mode}
    {seed : Integer} (hpos : 0 < seed.toInt) {status : Status} {t : Transcript}
    (ht : m.runFrom mode seed = .ok (status, t)) : t.notes.toList = [] := by
  obtain ⟨status', t', ps, r, notes, ht', hps, -, hend, -, hnotes⟩ := m.runFrom_produces mode hpos
  cases ht.symm.trans ht'
  have hclosing := step_notes_of_quiet hv r
  rw [hend] at hclosing
  rw [hnotes, hps.notes_of_quiet hv]
  exact hclosing

end Machine

theorem Session.call_notes_of_quiet {s : Session} (hv : s.machine.verbose = false) (c : Call) :
    (s.call c).notes = [] := by
  cases hreply : s.call c with
  | mk answer s' notes =>
    have hp := hreply ▸ s.performs_call c
    cases hp with
    | unready => rfl
    | refused => rfl
    | step => exact Machine.step_notes_of_quiet hv _
    | reset => rfl
    | run hpos ht => exact Machine.runFrom_notes_of_quiet hv hpos ht

/-! ## Sessions beside a log -/

namespace Logged

/-- What is left after actions, one after the other. -/
def after (s : Logged) (actions : List Action) : Logged :=
  actions.foldl (fun s a => (s.act a).after) s

/-- The results of actions, one after the other. -/
def results (s : Logged) : List Action → List Result
  | [] => []
  | a :: actions => s.act a :: (s.act a).after.results actions

theorem make_eq_ok_iff {p : Program} {b : Int} {log : Log} {s : Logged} :
    make p b log = .ok s ↔ ∃ m, Machine.make p b log.level = .ok m ∧ s = ⟨.ofMachine m, log⟩ := by
  unfold make
  rw [bind_eq_ok_iff]
  constructor
  · rintro ⟨m, hm, hs⟩
    exact ⟨m, hm, (Except.ok.inj hs).symm⟩
  · rintro ⟨m, hm, rfl⟩
    exact ⟨m, hm, rfl⟩

theorem machine_act (s : Logged) (a : Action) :
    (s.act a).after.session.machine = s.session.machine := by
  cases a with
  | call c => exact s.session.machine_call c
  | setLevel => rfl
  | setSilent => rfl

theorem machine_after (s : Logged) (actions : List Action) :
    (s.after actions).session.machine = s.session.machine := by
  induction actions generalizing s with
  | nil => rfl
  | cons a actions ih => exact (ih _).trans (s.machine_act a)

/-- A machine that was made at another level than debug writes nothing, whatever the log. -/
theorem entries_of_quiet {s : Logged} (hv : s.session.machine.verbose = false)
    (actions : List Action) : ∀ r ∈ s.results actions, r.entries = [] := by
  induction actions generalizing s with
  | nil => simp [results]
  | cons a actions ih =>
    refine List.forall_mem_cons.2 ⟨?_, ih ((congrArg _ (s.machine_act a)).trans hv)⟩
    cases a with
    | call c =>
      show s.log.writeAll .debug (s.session.call c).notes = []
      rw [Session.call_notes_of_quiet hv c]
      rfl
    | setLevel => rfl
    | setSilent => rfl

/-- What is seen of a result beside the log: the answer and the run. -/
def Result.seen (r : Result) : Option (Except Error Session.Answer) × Option Run :=
  (r.answer, r.after.session.run)

/-- Alike sessions stay alike beside any two logs and are seen to do the same. -/
theorem act_alike {s s' : Logged} (h : s.session.Alike s'.session) (a : Action) :
    (s.act a).seen = (s'.act a).seen ∧ (s.act a).after.session.Alike (s'.act a).after.session := by
  cases a with
  | call c =>
    obtain ⟨hview, halike⟩ := h.call c
    have hanswer := congrArg Session.View.answer hview
    exact ⟨Prod.ext (congrArg some hanswer) halike.run, halike⟩
  | setLevel => exact ⟨Prod.ext rfl h.run, h⟩
  | setSilent => exact ⟨Prod.ext rfl h.run, h⟩

theorem results_alike {s s' : Logged} (h : s.session.Alike s'.session) (actions : List Action) :
    (s.results actions).map Result.seen = (s'.results actions).map Result.seen := by
  induction actions generalizing s s' with
  | nil => rfl
  | cons a actions ih =>
    obtain ⟨hseen, halike⟩ := act_alike h a
    rw [results, results, List.map_cons, List.map_cons, hseen, ih halike]

/-- A log at debug level that is not silent writes all notes. -/
theorem writeAll_debug (notes : List String) :
    (Log.mk .debug false).writeAll .debug notes = notes.map fun note => ⟨.debug, note⟩ := by
  have hwrite : (Log.mk .debug false).write .debug = fun note => [⟨.debug, note⟩] := rfl
  rw [Log.writeAll, hwrite]
  exact List.map_eq_flatMap.symm

/-- A machine that was made while the log was at debug level, and that traces a run while the log
    is at debug level and not silent, writes one entry for every line of the trace behind the
    first, with the step and with the index and the text of the fraction in brackets there; then
    it writes that the run has halted, if it has. A machine that was made at another level never
    writes anything, whatever becomes of the log. Apart from the log, machines that were made at
    any two levels do the same. -/
theorem log_records_trace {p : Program} {b : Int} {log : Log} {s : Logged}
    (hs : make p b log = .ok s) :
    (log.level = .debug → ∀ (history : List Action) (seed : Integer), 0 < seed.toInt →
      (s.after history).log = ⟨.debug, false⟩ →
      let result := (s.after history).act (.call (.run .trace seed))
      let steps := result.after.session.steps
      ∃ (status : Status) (lines : List String) (applied : List (Nat × String)),
        result.answer = some (.ok (.finished status lines)) ∧ lines.length = steps ∧
        lines.map bracketed = [] :: applied.map (fun a => [a]) ∧
        result.entries = ((applied.zipIdx 2).map fun q => ⟨.debug, appliedMessage q.2 q.1⟩) ++
          if status = .halted then [⟨.debug, "Halted after " ++ steps.repr ++ " steps"⟩] else []) ∧
    (log.level ≠ .debug → ∀ actions, ∀ r ∈ s.results actions, r.entries = []) ∧
    ∀ log' : Log, ∃ s', make p b log' = .ok s' ∧
      ∀ actions, (s.results actions).map Result.seen = (s'.results actions).map Result.seen := by
  obtain ⟨m, hm, rfl⟩ := make_eq_ok_iff.1 hs
  obtain ⟨hb, -, hmachine⟩ := Machine.make_eq_ok_iff.1 hm
  refine ⟨?_, ?_, ?_⟩
  · intro hlevel history seed hpos hlog
    have hmade : ((Logged.mk (.ofMachine m) log).after history).session.machine = m :=
      machine_after _ history
    generalize (Logged.mk (.ofMachine m) log).after history = t at hlog hmade
    obtain ⟨⟨_, run⟩, _⟩ := t
    obtain rfl : m = _ := hmade.symm
    obtain rfl := hlog
    have hverbose : m.verbose = true := by rw [hmachine, hlevel]; rfl
    have hbound : 0 < m.bound := by rw [hmachine]; simp only; omega
    obtain ⟨status, t, applied, hrun, hsteps, hbrackets, hnotes⟩ :=
      Machine.runFrom_record hverbose hbound hpos
    simp only [act, Session.call, hrun]
    refine ⟨status, t.lines.toList, applied, rfl, ?_, hbrackets, ?_⟩
    · have hlength := congrArg List.length hbrackets
      rw [List.length_map, List.length_cons, List.length_map] at hlength
      exact hlength.trans hsteps.symm
    · rw [writeAll_debug, hnotes, List.map_append, List.map_map]
      cases status <;> rfl
  · intro hlevel actions
    apply entries_of_quiet
    show m.verbose = false
    rw [hmachine]
    simpa using hlevel
  · intro log'
    have hm' := Machine.make_level p b log.level log'.level
    rw [hm] at hm'
    refine ⟨_, make_eq_ok_iff.2 ⟨_, hm', rfl⟩, ?_⟩
    exact results_alike ⟨Machine.alike_of_make hm hm', rfl⟩

/-- From `4` the fraction `3/2` makes `6` and `9`, and both steps are in the log, though it was
    silent when the machine was made. A machine that was made at info level writes nothing of the
    same run, even at debug level. -/
theorem log_records_trace_three_halves :
    ∃ s s' : Logged,
      make ⟨[⟨.ofInt64 3, .ofInt64 2⟩]⟩ 5 ⟨.debug, true⟩ = .ok s ∧
      make ⟨[⟨.ofInt64 3, .ofInt64 2⟩]⟩ 5 ⟨.info, false⟩ = .ok s' ∧
      (s.after [.call (.run .values (.ofInt64 2)), .setSilent false]).log = ⟨.debug, false⟩ ∧
      ((s.after [.call (.run .values (.ofInt64 2)), .setSilent false]).act
        (.call (.run .trace (.ofInt64 4)))).entries =
          [⟨.debug, "Step 2: applied 3/2 (#0)"⟩, ⟨.debug, "Step 3: applied 3/2 (#0)"⟩,
            ⟨.debug, "Halted after 3 steps"⟩] ∧
      ∀ r ∈ s'.results [.setLevel .debug, .call (.run .trace (.ofInt64 4))], r.entries = [] := by
  let p : Program := ⟨[⟨.ofInt64 3, .ofInt64 2⟩]⟩
  have hquiet := Session.make_three_halves (b := 5) (by decide)
  have hverbose := Machine.make_level p 5 .info .debug
  rw [hquiet] at hverbose
  have hs : make p 5 ⟨.debug, true⟩ = .ok ⟨.ofMachine ⟨p, 5, true⟩, ⟨.debug, true⟩⟩ :=
    make_eq_ok_iff.2 ⟨_, hverbose, rfl⟩
  have hs' : make p 5 ⟨.info, false⟩ = .ok ⟨.ofMachine ⟨p, 5, false⟩, ⟨.info, false⟩⟩ :=
    make_eq_ok_iff.2 ⟨_, hquiet, rfl⟩
  have hlog : ((Logged.mk (.ofMachine ⟨p, 5, true⟩) ⟨.debug, true⟩).after
      [.call (.run .values (.ofInt64 2)), .setSilent false]).log = ⟨.debug, false⟩ := rfl
  obtain ⟨status, lines, applied, hanswer, hlength, hbrackets, hentries⟩ :=
    (log_records_trace hs).1 rfl _ (.ofInt64 4) (by decide) hlog
  obtain ⟨rfl, rfl⟩ : status = .halted ∧ lines = ["4:\t3/2", "6:\t[3/2]", "9:\t[3/2]"] := by
    have htraced : (((Logged.mk (.ofMachine ⟨p, 5, true⟩) ⟨.debug, true⟩).after
        [.call (.run .values (.ofInt64 2)), .setSilent false]).act
          (.call (.run .trace (.ofInt64 4)))).answer =
        some (.ok (.finished .halted ["4:\t3/2", "6:\t[3/2]", "9:\t[3/2]"])) := by decide +kernel
    simpa using hanswer.symm.trans htraced
  obtain rfl : applied = [(0, "3/2"), (0, "3/2")] := by
    have hmarks : ["4:\t3/2", "6:\t[3/2]", "9:\t[3/2]"].map bracketed =
        [[], [(0, "3/2")], [(0, "3/2")]] := by decide +kernel
    have hsingle : Function.Injective fun a : Nat × String => [a] := fun a b h => by simpa using h
    exact List.map_injective_iff.2 hsingle (List.cons.inj (hbrackets.symm.trans hmarks)).2
  rw [← hlength] at hentries
  exact ⟨_, _, hs, hs', hlog, hentries, (log_records_trace hs').2.1 (by decide) _⟩

end Logged

end Fractran
