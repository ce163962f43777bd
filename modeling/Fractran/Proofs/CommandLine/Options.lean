/-
  The language of the options.

  Arguments are groups with an ending behind them (`groups_and_ending`). The groups take effect
  one after the other, whatever follows them (`parse_groups`), and arguments that are accepted end
  with a group (`groups_of_parse`). From the groups follows what the options can be: a trace is
  printed iff `-d` was given, and a number of steps is positive.
-/
import Fractran.CommandLine.Options
import Mathlib.Tactic.Common

namespace Fractran.Options

/-- Arguments that belong together, with what they say. -/
inductive Group where
  | positional (argument : String)
  | trace
  | stepLimit (value : String) (n : Nat)
  | level (value : String) (level : Level)

namespace Group

/-- The value of the group is what its text says. -/
def WellFormed : Group → Prop
  | positional argument => Kind.of argument = .positional
  | trace => True
  | stepLimit value n => stepLimit? value = some n
  | level value l => Level.ofName? value = some l

/-- How the group is written. -/
def arguments : Group → List String
  | positional argument => [argument]
  | trace => ["-d"]
  | stepLimit value _ => ["-c", value]
  | level value _ => ["-l", value]

/-- What the group does. -/
def apply (o : Options) : Group → Options
  | positional _ => o
  | trace => { o with trace := true }
  | stepLimit _ n => { o with stepLimit := some n }
  | level _ l => { o with level := l }

/-- What the group leaves for the command. -/
def positional? : Group → Option String
  | positional argument => some argument
  | _ => none

end Group

/-- The options that a kind other than a positional argument stands for. -/
def Kind.option? : Kind → Option String
  | .trace => some "-d"
  | .stepLimit => some "-c"
  | .level => some "-l"
  | _ => none

theorem eq_of_option? {argument option : String} (h : (Kind.of argument).option? = some option) :
    argument = option := by
  rw [← String.toList_inj]
  unfold Kind.of at h
  split at h
  next c rest htext =>
    rw [htext]
    split_ifs at h with hc
    · cases h
    · split at h
      next heq => cases heq; cases h; rfl
      next heq => cases heq; cases h; rfl
      next heq => cases heq; cases h; rfl
      next => cases h
  next => cases h

/-! ## Groups and what stands behind them -/

/-- What stands behind the last group: nothing, an option that waits for its argument, or arguments
    that are faulty whatever follows them. -/
inductive Ending : List String → Prop
  | nothing : Ending []
  | waiting {option : String} (h : option = "-c" ∨ option = "-l") : Ending [option]
  | faulty {tail : List String} (e : Error)
      (h : ∀ (o : Options) more, o.parse (tail ++ more) = (o, .error e)) : Ending tail

/-- What stands behind the last group changes no options. -/
theorem Ending.parse {tail : List String} (h : Ending tail) :
    ∃ result, (∀ o : Options, o.parse tail = (o, result)) ∧
      ∀ positional, result = .ok positional → tail = [] ∧ positional = [] := by
  cases h with
  | nothing =>
    refine ⟨.ok [], fun _ => rfl, ?_⟩
    rintro _ ⟨⟩
    exact ⟨rfl, rfl⟩
  | waiting h =>
    refine ⟨.error .missingArgument, ?_, nofun⟩
    intro o
    rcases h with rfl | rfl <;> rfl
  | faulty e h =>
    refine ⟨.error e, ?_, nofun⟩
    intro o
    rw [← tail.append_nil]
    exact h o []

/-- Arguments that start with no group, and the fault in them. -/
inductive Faulty : List String → Error → Prop
  | waiting {option : String} (h : option = "-c" ∨ option = "-l") :
      Faulty [option] .missingArgument
  | stepLimit {value : String} (h : stepLimit? value = none) (rest : List String) :
      Faulty ("-c" :: value :: rest) (.invalidStepLimit value)
  | level {value : String} (h : Level.ofName? value = none) (rest : List String) :
      Faulty ("-l" :: value :: rest) (.unknownLevel value)
  | unknown {argument : String} (h : Kind.of argument = .unknown) (rest : List String) :
      Faulty (argument :: rest) (.unknownOption argument)

/-- A fault changes no options. -/
theorem Faulty.parse {tail : List String} {e : Error} (h : Faulty tail e) (o : Options) :
    o.parse tail = (o, .error e) := by
  have hc : Kind.of "-c" = .stepLimit := by decide
  have hl : Kind.of "-l" = .level := by decide
  cases h with
  | waiting h => rcases h with rfl | rfl <;> rfl
  | stepLimit h =>
    rw [Options.parse, hc]
    simp only [h]
  | level h =>
    rw [Options.parse, hl]
    simp only [h]
  | unknown h =>
    rw [Options.parse.eq_def]
    simp only [h]

/-- All arguments are groups with nothing or a fault behind them. -/
theorem groups_and_fault (arguments : List String) :
    ∃ (gs : List Group) (tail : List String), (∀ g ∈ gs, g.WellFormed) ∧
      (tail = [] ∨ ∃ e, Faulty tail e) ∧ arguments = gs.flatMap Group.arguments ++ tail := by
  -- Along the recursion of `parse`, whatever the options: a case that goes on puts its group in
  -- front of the others.
  obtain ⟨o⟩ : Nonempty Options := ⟨{}⟩
  induction o, arguments using Options.parse.induct with
  | case1 o => exact ⟨[], [], by simp, .inl rfl, rfl⟩
  | case2 o argument rest hk _ _ _ ih =>
    obtain ⟨gs, tail, hgs, htail, rfl⟩ := ih
    exact ⟨.positional argument :: gs, tail, List.forall_mem_cons.2 ⟨hk, hgs⟩, htail, rfl⟩
  | case3 o argument rest hk ih =>
    obtain ⟨gs, tail, hgs, htail, rfl⟩ := ih
    obtain rfl := eq_of_option? (by rw [hk]; rfl : (Kind.of argument).option? = some "-d")
    exact ⟨.trace :: gs, tail, List.forall_mem_cons.2 ⟨trivial, hgs⟩, htail, rfl⟩
  | case4 o argument hk =>
    have heq := eq_of_option? (by rw [hk]; rfl : (Kind.of argument).option? = some "-c")
    exact ⟨[], [argument], by simp, .inr ⟨_, .waiting (.inl heq)⟩, rfl⟩
  | case5 o argument hk value rest n hn ih =>
    obtain ⟨gs, tail, hgs, htail, rfl⟩ := ih
    obtain rfl := eq_of_option? (by rw [hk]; rfl : (Kind.of argument).option? = some "-c")
    exact ⟨.stepLimit value n :: gs, tail, List.forall_mem_cons.2 ⟨hn, hgs⟩, htail, rfl⟩
  | case6 o argument hk value rest hn =>
    obtain rfl := eq_of_option? (by rw [hk]; rfl : (Kind.of argument).option? = some "-c")
    exact ⟨[], _, by simp, .inr ⟨_, .stepLimit hn rest⟩, rfl⟩
  | case7 o argument hk =>
    have heq := eq_of_option? (by rw [hk]; rfl : (Kind.of argument).option? = some "-l")
    exact ⟨[], [argument], by simp, .inr ⟨_, .waiting (.inr heq)⟩, rfl⟩
  | case8 o argument hk value rest l hl ih =>
    obtain ⟨gs, tail, hgs, htail, rfl⟩ := ih
    obtain rfl := eq_of_option? (by rw [hk]; rfl : (Kind.of argument).option? = some "-l")
    exact ⟨.level value l :: gs, tail, List.forall_mem_cons.2 ⟨hl, hgs⟩, htail, rfl⟩
  | case9 o argument hk value rest hl =>
    obtain rfl := eq_of_option? (by rw [hk]; rfl : (Kind.of argument).option? = some "-l")
    exact ⟨[], _, by simp, .inr ⟨_, .level hl rest⟩, rfl⟩
  | case10 o argument rest hk => exact ⟨[], _, by simp, .inr ⟨_, .unknown hk rest⟩, rfl⟩

/-- All arguments are groups with an ending behind them. -/
theorem groups_and_ending (arguments : List String) :
    ∃ (gs : List Group) (tail : List String), (∀ g ∈ gs, g.WellFormed) ∧ Ending tail ∧
      arguments = gs.flatMap Group.arguments ++ tail := by
  obtain ⟨gs, tail, hgs, htail, harguments⟩ := groups_and_fault arguments
  refine ⟨gs, tail, hgs, ?_, harguments⟩
  obtain rfl | ⟨e, hfault⟩ := htail
  · exact .nothing
  · cases hfault with
    | waiting h => exact .waiting h
    | stepLimit h rest => exact .faulty _ fun o more => (Faulty.stepLimit h (rest ++ more)).parse o
    | level h rest => exact .faulty _ fun o more => (Faulty.level h (rest ++ more)).parse o
    | unknown h rest => exact .faulty _ fun o more => (Faulty.unknown h (rest ++ more)).parse o

theorem map_nil_append (result : Except Error (List String)) : result.map ([] ++ ·) = result := by
  cases result <;> rfl

/-- A group does what it says, and parsing goes on behind it. -/
theorem parse_group {g : Group} (h : g.WellFormed) (o : Options) (rest : List String) :
    o.parse (g.arguments ++ rest) = (((g.apply o).parse rest).1,
      ((g.apply o).parse rest).2.map (g.positional?.toList ++ ·)) := by
  have hd : Kind.of "-d" = .trace := by decide
  have hc : Kind.of "-c" = .stepLimit := by decide
  have hl : Kind.of "-l" = .level := by decide
  cases g with
  | positional argument =>
    simp only [Group.WellFormed] at h
    simp only [Group.arguments, List.singleton_append]
    rw [Options.parse.eq_def]
    simp only [h, Group.apply, Group.positional?, Option.toList, List.singleton_append]
  | trace =>
    simp only [Group.arguments, List.singleton_append]
    rw [Options.parse.eq_def]
    simp only [hd, Group.apply, Group.positional?, Option.toList, map_nil_append]
  | stepLimit value n =>
    simp only [Group.WellFormed] at h
    simp only [Group.arguments, List.cons_append, List.nil_append]
    rw [Options.parse, hc]
    simp only [h, Group.apply, Group.positional?, Option.toList, map_nil_append]
  | level value l =>
    simp only [Group.WellFormed] at h
    simp only [Group.arguments, List.cons_append, List.nil_append]
    rw [Options.parse, hl]
    simp only [h, Group.apply, Group.positional?, Option.toList, map_nil_append]

/-- Groups take effect one after the other, and parsing goes on behind them. -/
theorem parse_groups {gs : List Group} (h : ∀ g ∈ gs, g.WellFormed) (o : Options)
    (rest : List String) :
    o.parse (gs.flatMap Group.arguments ++ rest) = (((gs.foldl Group.apply o).parse rest).1,
      ((gs.foldl Group.apply o).parse rest).2.map (gs.filterMap Group.positional? ++ ·)) := by
  induction gs generalizing o with
  | nil =>
    rw [List.foldl_nil, List.filterMap_nil, map_nil_append]
    rfl
  | cons g gs ih =>
    rw [List.forall_mem_cons] at h
    rw [List.flatMap_cons, List.append_assoc, parse_group h.1, ih h.2, List.foldl_cons]
    cases ((gs.foldl Group.apply (g.apply o)).parse rest).2 with
    | error e => rfl
    | ok positional => cases g <;> rfl

/-- Accepted arguments fall into groups. -/
theorem groups_of_parse {o o' : Options} {arguments positional : List String}
    (h : o.parse arguments = (o', .ok positional)) :
    ∃ gs : List Group, (∀ g ∈ gs, g.WellFormed) ∧ arguments = gs.flatMap Group.arguments ∧
      o' = gs.foldl Group.apply o ∧ positional = gs.filterMap Group.positional? := by
  obtain ⟨gs, tail, hgs, htail, rfl⟩ := groups_and_ending arguments
  obtain ⟨result, hresult, hok⟩ := htail.parse
  rw [parse_groups hgs, hresult, Prod.mk.injEq] at h
  obtain ⟨rfl, h⟩ := h
  cases result with
  | error e => cases h
  | ok rest =>
    obtain ⟨rfl, rfl⟩ := hok rest rfl
    cases h
    exact ⟨gs, hgs, List.append_nil _, rfl, List.append_nil _⟩

/-! ## What the groups do -/

/-- No group but the one that asks for a trace is written with `-d`. -/
theorem Group.mem_arguments_iff {g : Group} (h : g.WellFormed) :
    "-d" ∈ g.arguments ↔ g = .trace := by
  have hkind : Kind.of "-d" = .trace := by decide
  have hsteps : stepLimit? "-d" = none := by decide
  have hlevel : Level.ofName? "-d" = none := by decide
  cases g with
  | positional argument =>
    have : "-d" ≠ argument := by
      rintro rfl
      exact absurd (hkind.symm.trans h) (by decide)
    simpa [arguments] using this
  | trace => simp [arguments]
  | stepLimit value n =>
    have : "-d" ≠ value := by
      rintro rfl
      exact absurd (hsteps.symm.trans h) (by simp)
    simpa [arguments] using this
  | level value l =>
    have : "-d" ≠ value := by
      rintro rfl
      exact absurd (hlevel.symm.trans h) (by simp)
    simpa [arguments] using this

theorem foldl_apply_trace (gs : List Group) (o : Options) :
    (gs.foldl Group.apply o).trace = true ↔ o.trace = true ∨ .trace ∈ gs := by
  induction gs generalizing o with
  | nil => simp
  | cons g gs ih =>
    rw [List.foldl_cons, ih]
    cases g <;> simp [Group.apply]

theorem stepLimit?_pos {value : String} {n : Nat} (h : stepLimit? value = some n) : 0 < n := by
  simp only [stepLimit?] at h
  split_ifs at h with _ hn
  cases h
  exact hn.1

theorem foldl_apply_stepLimit {gs : List Group} (h : ∀ g ∈ gs, g.WellFormed) {o : Options}
    (ho : ∀ n, o.stepLimit = some n → 0 < n) :
    ∀ n, (gs.foldl Group.apply o).stepLimit = some n → 0 < n := by
  induction gs generalizing o with
  | nil => exact ho
  | cons g gs ih =>
    rw [List.forall_mem_cons] at h
    refine ih h.2 ?_
    cases g with
    | stepLimit value n =>
      intro k hk
      cases hk
      exact stepLimit?_pos h.1
    | _ => exact ho

/-- A trace is printed iff it was asked for. -/
theorem parse_trace_iff {o : Options} {arguments positional : List String}
    (h : ({} : Options).parse arguments = (o, .ok positional)) :
    o.trace = true ↔ "-d" ∈ arguments := by
  obtain ⟨gs, hgs, rfl, rfl, -⟩ := groups_of_parse h
  rw [foldl_apply_trace, List.mem_flatMap]
  constructor
  · rintro (h | h)
    · cases h
    · exact ⟨.trace, h, List.mem_singleton_self _⟩
  · rintro ⟨g, hg, hd⟩
    exact .inr ((Group.mem_arguments_iff (hgs g hg)).1 hd ▸ hg)

/-- A number of steps that was given is positive. -/
theorem parse_stepLimit_pos {o : Options} {arguments positional : List String}
    (h : ({} : Options).parse arguments = (o, .ok positional)) :
    ∀ n, o.stepLimit = some n → 0 < n := by
  obtain ⟨gs, hgs, -, rfl, -⟩ := groups_of_parse h
  exact foldl_apply_stepLimit hgs (fun n hn => by cases hn)

end Fractran.Options
