/-
  The level of the log decides what is noted, and nothing else.

  Options that differ in nothing but their level are alike. Alike options parse further arguments
  alike (`Alike.parse`), and a level can be chosen wherever no option waits for its argument
  (`parse_insert_level`). Alike options run a program alike: the machines take the same steps, and
  what is written besides faults is chatter (`alike_runProgram`).
-/
import Fractran.Proofs.CommandLine.Outcome
import Fractran.Proofs.Machine.Alike

namespace Fractran.Options

/-- Complete groups, and behind them an option that waits for its argument. -/
def Pending (arguments : List String) : Prop :=
  ∃ (gs : List Group) (option : String), (∀ g ∈ gs, g.WellFormed) ∧
    (option = "-c" ∨ option = "-l") ∧ arguments = gs.flatMap Group.arguments ++ [option]

/-- Options that differ in nothing but their level. -/
structure Alike (o o' : Options) : Prop where
  stepLimit : o.stepLimit = o'.stepLimit
  trace : o.trace = o'.trace

theorem Alike.apply {o o' : Options} (h : o.Alike o') (g : Group) :
    (g.apply o).Alike (g.apply o') := by
  cases g with
  | positional => exact h
  | trace => exact ⟨h.stepLimit, rfl⟩
  | stepLimit => exact ⟨rfl, h.trace⟩
  | level => exact ⟨h.stepLimit, h.trace⟩

theorem Alike.foldl_apply {o o' : Options} (h : o.Alike o') (gs : List Group) :
    (gs.foldl Group.apply o).Alike (gs.foldl Group.apply o') := by
  induction gs generalizing o o' with
  | nil => exact h
  | cons g gs ih => exact ih (h.apply g)

/-- From alike options the same arguments remain or the same fault is found, and the options are
    alike at the end. -/
theorem Alike.parse {o o' : Options} (h : o.Alike o') (arguments : List String) :
    (o.parse arguments).1.Alike (o'.parse arguments).1 ∧
      (o.parse arguments).2 = (o'.parse arguments).2 := by
  obtain ⟨gs, tail, hgs, htail, rfl⟩ := groups_and_ending arguments
  obtain ⟨result, hresult, -⟩ := htail.parse
  rw [parse_groups hgs, parse_groups hgs, hresult, hresult]
  exact ⟨h.foldl_apply gs, rfl⟩

/-- A level can be chosen wherever no option waits for its argument. -/
theorem parse_insert_level (o : Options) {before : List String} (h : ¬ Pending before)
    (level : Level) (after : List String) :
    (o.parse (before ++ "-l" :: level.name :: after)).1.Alike (o.parse (before ++ after)).1 ∧
      (o.parse (before ++ "-l" :: level.name :: after)).2 = (o.parse (before ++ after)).2 := by
  obtain ⟨gs, tail, hgs, htail, rfl⟩ := groups_and_ending before
  rw [List.append_assoc, List.append_assoc, parse_groups hgs, parse_groups hgs]
  cases htail with
  | nothing =>
    have hg : (Group.level level.name level).WellFormed := by cases level <;> exact rfl
    have hinsert : (gs.foldl Group.apply o).parse ("-l" :: level.name :: after) = _ :=
      parse_group hg _ after
    simp only [Group.apply, Group.positional?, Option.toList, map_nil_append] at hinsert
    have halike : ({ gs.foldl Group.apply o with level := level } : Options).Alike
        (gs.foldl Group.apply o) := ⟨rfl, rfl⟩
    obtain ⟨hoptions, hresult⟩ := halike.parse after
    rw [List.nil_append, List.nil_append, hinsert, hresult]
    exact ⟨hoptions, rfl⟩
  | waiting hoption => exact absurd ⟨gs, _, hgs, hoption, rfl⟩ h
  | faulty e hfault =>
    rw [hfault, hfault]
    exact ⟨⟨rfl, rfl⟩, rfl⟩

end Fractran.Options

namespace Fractran.CommandLine

/-! ## Responses -/

/-- An entry of the two lowest levels. -/
def Diagnostic.isChatter : Diagnostic → Bool
  | .entry e => e.level == .debug || e.level == .info
  | .usage _ => false

/-- Two responses that differ in nothing but chatter. -/
structure Response.Alike (r r' : Response) : Prop where
  exit : r.exit = r'.exit
  output : r.output = r'.output
  diagnostics : r.diagnostics.filter (!·.isChatter) = r'.diagnostics.filter (!·.isChatter)

theorem filter_chatter {o : Options} {entries : List Log.Entry} (h : Chatter o entries) :
    (entries.map Diagnostic.entry).filter (!·.isChatter) = [] := by
  rw [List.filter_eq_nil_iff, List.forall_mem_map]
  intro e he
  obtain ⟨-, hlevel | hlevel⟩ := h e he <;> simp [Diagnostic.isChatter, hlevel]

/-- Logs of any two levels report a failure alike. -/
theorem alike_failure {o o' : Options} {before before' : List Log.Entry} (h : Chatter o before)
    (h' : Chatter o' before') (log log' : Log) (e : Error) :
    (failure log before e).Alike (failure log' before' e) := by
  refine ⟨rfl, rfl, ?_⟩
  simp only [failure, write_error, List.map_append, List.filter_append, filter_chatter h,
    filter_chatter h']

/-- What is logged in a run is chatter. -/
theorem chatter_run {o : Options} {before : List Log.Entry} (h : Chatter o before)
    (notes : List String) (closing : String) :
    Chatter o (before ++ (commandLog o).writeAll .debug notes ++
      (commandLog o).write .debug closing) := by
  refine List.forall_mem_append.2 ⟨List.forall_mem_append.2 ⟨h, ?_⟩, chatter_write o (.inr rfl) _⟩
  intro e he
  obtain ⟨note, -, he⟩ := List.mem_flatMap.1 he
  exact chatter_write o (.inr rfl) note e he

/-! ## Runs -/

/-- Two jobs that differ in nothing but what is noted. -/
structure Job.Alike (j j' : Job) : Prop where
  machine : j.machine.Alike j'.machine
  start : j.start = j'.start
  mode : j.mode = j'.mode

theorem Job.Alike.perform {j j' : Job} (h : j.Alike j') :
    j.perform.2.lines = j'.perform.2.lines := by
  unfold Job.perform Machine.complete
  rw [← h.machine.bound]
  exact (h.machine.drive j.mode j'.mode j.machine.bound h.start).2.2 h.mode rfl

variable {o o' : Options}

/-- Alike options make alike jobs or find the same fault. -/
theorem alike_make (h : o.Alike o') (n : Integer) (p : Program) :
    (∃ e, Job.make o n p = .error e ∧ Job.make o' n p = .error e) ∨
      ∃ j j', Job.make o n p = .ok j ∧ Job.make o' n p = .ok j' ∧ j.Alike j' ∧
        j.log = commandLog o ∧ j'.log = commandLog o' := by
  have hbound : o'.bound = o.bound := by rw [Options.bound, Options.bound, h.stepLimit]
  unfold Job.make
  rw [hbound, Machine.make_level p o.bound o.level o'.level, h.trace]
  cases Machine.make p o.bound o.level with
  | error e => exact .inl ⟨e, rfl, rfl⟩
  | ok m =>
    cases Machine.start n with
    | error e => exact .inl ⟨e, rfl, rfl⟩
    | ok r => exact .inr ⟨_, _, rfl, rfl, ⟨⟨rfl, rfl⟩, rfl, rfl⟩, rfl, rfl⟩

/-- Alike options run a program alike. -/
theorem alike_runProgram (h : o.Alike o') (console : Console) (origin : Origin)
    (numeral : String) :
    (runProgram console o origin numeral).Alike (runProgram console o' origin numeral) := by
  have hreading := chatter_reading console o origin numeral
  have hreading' := chatter_reading console o' origin numeral
  unfold runProgram
  cases load numeral (origin.openIn console) with
  | error e => exact alike_failure hreading hreading' _ _ e
  | ok loaded =>
    obtain ⟨n, p⟩ := loaded
    have hloaded := chatter_loaded console o origin numeral p
    have hloaded' := chatter_loaded console o' origin numeral p
    obtain ⟨e, he, he'⟩ | ⟨j, j', hj, hj', halike, hlog, hlog'⟩ := alike_make h n p
    · simp only [he, he']
      exact alike_failure hloaded hloaded' _ _ e
    · simp only [hj, hj', hlog, hlog']
      refine ⟨rfl, congrArg Array.toList halike.perform, ?_⟩
      rw [filter_chatter (chatter_run hloaded _ _), filter_chatter (chatter_run hloaded' _ _)]

/-- A level that is chosen where no option waits for its argument changes neither the exit status
    nor what is printed, and of the diagnostics only entries at debug or info level. -/
theorem respond_insert_level (console : Console) {before : List String}
    (h : ¬ Options.Pending before) (level : Level) (after : List String) :
    (respond console (before ++ "-l" :: level.name :: after)).Alike
      (respond console (before ++ after)) := by
  obtain ⟨halike, hresult⟩ := Options.parse_insert_level {} h level after
  unfold respond
  generalize ({} : Options).parse (before ++ "-l" :: level.name :: after) = parsed at halike hresult
  generalize ({} : Options).parse (before ++ after) = parsed' at halike hresult
  obtain ⟨o, result⟩ := parsed
  obtain ⟨o', result'⟩ := parsed'
  obtain rfl : result = result' := hresult
  cases result with
  | error e => exact alike_failure (chatter_nil o) (chatter_nil o') _ _ e
  | ok positional =>
    cases hselect : Command.select (!console.terminal) positional with
    | help =>
      simp only [hselect]
      refine ⟨rfl, rfl, ?_⟩
      rw [filter_chatter (chatter_opening o), filter_chatter (chatter_opening o')]
    | usage line =>
      simp only [hselect]
      exact ⟨rfl, rfl, rfl⟩
    | run origin numeral =>
      simp only [hselect]
      exact alike_runProgram halike console origin numeral

/-- Between `-d` and the seed a level can be chosen, and the trace of `3/2` from `4` is printed as
    without it, with other diagnostics. -/
theorem respond_insert_level_three_halves :
    ¬ Options.Pending ["-d"] ∧
      (respond { input := "3/2" } ["-d", "-l", "debug", "4"]).Alike
        (respond { input := "3/2" } ["-d", "4"]) ∧
      (respond { input := "3/2" } ["-d", "-l", "debug", "4"]).diagnostics ≠
        (respond { input := "3/2" } ["-d", "4"]).diagnostics := by
  have hpending : ¬ Options.Pending ["-d"] := by
    rintro ⟨gs, option, -, hoption, heq⟩
    obtain rfl : "-d" = option := by simpa using congrArg List.getLast? heq
    revert hoption
    decide
  refine ⟨hpending, respond_insert_level { input := "3/2" } hpending .debug ["4"], ?_⟩
  decide +kernel

end Fractran.CommandLine
