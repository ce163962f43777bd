/-
  The option language, said by texts alone.

  `Group.Spelled` says how a group may be written without the parser, and these are the groups that
  the parser takes (`spelled_iff`). Groups can be split off arguments in one way only
  (`arguments_append_inj`), so what stands in front of a fault is the longest row of groups
  (`complete_and_fault`). Several lists of arguments leave what all their groups in a row leave
  (`parseAll_groups`).
-/
import Fractran.Magnitude.Decimal
import Fractran.Proofs.CommandLine.Options

namespace Fractran.Options

/-! ## What may be written -/

/-- An argument that stands for itself: at most one character, no `-` in front, or a digit behind
    the `-`. -/
def Positional (argument : String) : Prop :=
  argument.length ≤ 1 ∨ argument.toList.head? ≠ some '-' ∨
    ∃ c rest, argument.toList = '-' :: c :: rest ∧ c.isDigit = true

/-- A sign or none, then digits, with the integer that they write. -/
inductive Signed : List Char → Int → Prop
  | plain {digits : List Char} (hne : digits ≠ []) (hd : ∀ c ∈ digits, c.isDigit = true) :
      Signed digits (Nat.ofDigitChars 10 digits 0)
  | plus {digits : List Char} (hne : digits ≠ []) (hd : ∀ c ∈ digits, c.isDigit = true) :
      Signed ('+' :: digits) (Nat.ofDigitChars 10 digits 0)
  | minus {digits : List Char} (hne : digits ≠ []) (hd : ∀ c ∈ digits, c.isDigit = true) :
      Signed ('-' :: digits) (-(Nat.ofDigitChars 10 digits 0 : Int))

/-- White space or none, then an integer, and nothing behind it. -/
def Writes (text : String) (z : Int) : Prop :=
  ∃ blanks signed : List Char, text.toList = blanks ++ signed ∧
    (∀ c ∈ blanks, isBlank c = true) ∧ Signed signed z

/-- The group is written as the option language has it. -/
def Group.Spelled : Group → Prop
  | positional argument => Positional argument
  | trace => True
  | stepLimit value n => Writes value n ∧ 1 ≤ n ∧ n ≤ 0x7FFFFFFFFFFFFFFF
  | level value l => value = l.name

theorem kind_of_eq_positional_iff (argument : String) :
    Kind.of argument = .positional ↔ Positional argument := by
  unfold Kind.of Positional
  rw [← String.length_toList]
  split
  next c rest heq =>
    rw [heq]
    by_cases hc : c.isDigit = true
    · simp [hc]
    · rw [if_neg hc]
      constructor
      · intro h
        split at h <;> cases h
      · simp [hc]
  next hother =>
    simp only [true_iff]
    cases heq : argument.toList with
    | nil => exact .inl (Nat.zero_le _)
    | cons c rest =>
      cases rest with
      | nil => exact .inl (Nat.le_refl _)
      | cons d rest =>
        refine .inr (.inl ?_)
        simp only [List.head?_cons, ne_eq, Option.some.injEq]
        rintro rfl
        exact hother d rest heq

theorem ofName?_eq_some_iff {value : String} {l : Level} :
    Level.ofName? value = some l ↔ value = l.name := by
  constructor
  · intro h
    have hname := List.find?_some h
    exact (beq_iff_eq.1 hname).symm
  · rintro rfl
    cases l <;> decide

theorem isBlank_of_isDigit {c : Char} (h : c.isDigit = true) : isBlank c = false := by
  rw [Magnitude.isDigit_iff] at h
  have hspace : c ≠ ' ' := by
    rintro rfl
    exact absurd h.1 (by decide)
  simp only [isBlank, Bool.or_eq_false_iff, beq_eq_false_iff_ne, Bool.and_eq_false_iff,
    decide_eq_false_iff_not]
  exact ⟨hspace, .inr (by omega)⟩

/-- White space in front of an integer is all that is dropped. -/
theorem Signed.dropWhile_append {signed : List Char} {z : Int} (h : Signed signed z)
    {blanks : List Char} (hblanks : ∀ c ∈ blanks, isBlank c = true) :
    (blanks ++ signed).dropWhile isBlank = signed := by
  rw [List.dropWhile_append_of_pos hblanks]
  cases h with
  | plain hne hd =>
    obtain ⟨c, rest, rfl⟩ := List.exists_cons_of_ne_nil hne
    have hc := isBlank_of_isDigit (hd c List.mem_cons_self)
    exact List.dropWhile_cons_of_neg (by simp [hc])
  | plus => exact List.dropWhile_cons_of_neg (by decide)
  | minus => exact List.dropWhile_cons_of_neg (by decide)

theorem dropPlus_cases (text : List Char) :
    (∃ rest, text = '+' :: rest ∧ dropPlus text = rest) ∨ dropPlus text = text := by
  fun_cases dropPlus text with
  | case1 rest => exact .inl ⟨rest, rfl, rfl⟩
  | case2 => exact .inr rfl

/-- A number is what stands behind a plus sign or none. -/
theorem signed_dropPlus {text : List Char} (hne : dropPlus text ≠ [])
    (hd : ∀ c ∈ dropPlus text, c.isDigit = true) :
    Signed text (Nat.ofDigitChars 10 (dropPlus text) 0) := by
  obtain ⟨rest, rfl, hrest⟩ | hself := dropPlus_cases text
  · rw [hrest] at hne hd ⊢
    exact .plus hne hd
  · rw [hself] at hne hd ⊢
    exact .plain hne hd

theorem Signed.dropPlus {signed : List Char} {n : Nat} (h : Signed signed n) (hn : 1 ≤ n) :
    dropPlus signed ≠ [] ∧ (∀ c ∈ dropPlus signed, c.isDigit = true) ∧
      n = Nat.ofDigitChars 10 (dropPlus signed) 0 := by
  generalize hz : (n : Int) = z at h
  cases h with
  | plus hne hd => exact ⟨hne, hd, Int.ofNat.inj hz⟩
  | minus => omega
  | plain hne hd =>
    obtain ⟨rest, rfl, -⟩ | hself := dropPlus_cases signed
    · exact absurd (hd '+' List.mem_cons_self) (by decide)
    · rw [hself]
      exact ⟨hne, hd, Int.ofNat.inj hz⟩

/-- The argument of `-c` is taken if it writes a number from one to the largest machine integer. -/
theorem stepLimit?_eq_some_iff {value : String} {n : Nat} :
    stepLimit? value = some n ↔ Writes value n ∧ 1 ≤ n ∧ n ≤ 0x7FFFFFFFFFFFFFFF := by
  have hmax : 0x7FFFFFFFFFFFFFFF = Machine.unbounded := rfl
  simp only [stepLimit?, hmax]
  constructor
  · intro h
    split_ifs at h with hdigits hn
    cases h
    refine ⟨⟨value.toList.takeWhile isBlank, value.toList.dropWhile isBlank,
      List.takeWhile_append_dropWhile.symm, ?_, ?_⟩, hn⟩
    · exact List.all_eq_true.1 List.all_takeWhile
    · exact signed_dropPlus hdigits.1 (List.all_eq_true.1 hdigits.2)
  · rintro ⟨⟨blanks, signed, htext, hblanks, hsigned⟩, hn⟩
    obtain ⟨hne, hd, rfl⟩ := hsigned.dropPlus hn.1
    rw [htext, hsigned.dropWhile_append hblanks, if_pos ⟨hne, List.all_eq_true.2 hd⟩, if_pos hn]

theorem Group.spelled_iff (g : Group) : g.Spelled ↔ g.WellFormed := by
  cases g with
  | positional argument => exact (kind_of_eq_positional_iff argument).symm
  | trace => exact Iff.rfl
  | stepLimit value n => exact stepLimit?_eq_some_iff.symm
  | level value l => exact ofName?_eq_some_iff.symm

theorem forall_spelled_iff {gs : List Group} :
    (∀ g ∈ gs, g.Spelled) ↔ ∀ g ∈ gs, g.WellFormed :=
  forall₂_congr fun g _ => g.spelled_iff

/-! ## Splitting off groups -/

/-- The first argument of a group tells what the group is. -/
def Group.kind : Group → Kind
  | positional _ => .positional
  | trace => .trace
  | stepLimit _ _ => .stepLimit
  | level _ _ => .level

theorem Group.exists_arguments {g : Group} (h : g.WellFormed) :
    ∃ first rest, g.arguments = first :: rest ∧ Kind.of first = g.kind := by
  cases g with
  | positional argument => exact ⟨_, _, rfl, h⟩
  | trace => exact ⟨_, _, rfl, show Kind.of "-d" = .trace by decide⟩
  | stepLimit => exact ⟨_, _, rfl, show Kind.of "-c" = .stepLimit by decide⟩
  | level => exact ⟨_, _, rfl, show Kind.of "-l" = .level by decide⟩

theorem Group.kind_eq {g : Group} (h : g.WellFormed) {first : String} {more rest : List String}
    (heq : first :: more = g.arguments ++ rest) : g.kind = Kind.of first := by
  obtain ⟨first', more', hfirst, hkind⟩ := exists_arguments h
  rw [hfirst] at heq
  rw [(List.cons.inj heq).1, hkind]

theorem Group.eq_stepLimit {g : Group} (h : g.kind = .stepLimit) :
    ∃ value n, g = .stepLimit value n := by
  cases g with
  | stepLimit value n => exact ⟨value, n, rfl⟩
  | _ => cases h

theorem Group.eq_level {g : Group} (h : g.kind = .level) : ∃ value l, g = .level value l := by
  cases g with
  | level value l => exact ⟨value, l, rfl⟩
  | _ => cases h

/-- Two groups in front of the same arguments are the same. -/
theorem Group.arguments_append_inj {g g' : Group} (h : g.WellFormed) (h' : g'.WellFormed)
    {rest rest' : List String} (heq : g.arguments ++ rest = g'.arguments ++ rest') :
    g = g' ∧ rest = rest' := by
  have hkind : g'.kind = g.kind := by
    obtain ⟨first, more, hfirst, hk⟩ := exists_arguments h
    rw [hfirst, List.cons_append] at heq
    rw [kind_eq h' heq, hk]
  cases g with
  | positional argument =>
    cases g' with
    | positional argument' =>
      obtain ⟨rfl, rfl⟩ := List.cons.inj heq
      exact ⟨rfl, rfl⟩
    | _ => cases hkind
  | trace =>
    cases g' with
    | trace => exact ⟨rfl, (List.cons.inj heq).2⟩
    | _ => cases hkind
  | stepLimit value n =>
    cases g' with
    | stepLimit value' n' =>
      obtain ⟨-, heq⟩ := List.cons.inj heq
      obtain ⟨rfl, rfl⟩ := List.cons.inj heq
      obtain rfl : n = n' := Option.some.inj (h.symm.trans h')
      exact ⟨rfl, rfl⟩
    | _ => cases hkind
  | level value l =>
    cases g' with
    | level value' l' =>
      obtain ⟨-, heq⟩ := List.cons.inj heq
      obtain ⟨rfl, rfl⟩ := List.cons.inj heq
      obtain rfl : l = l' := Option.some.inj (h.symm.trans h')
      exact ⟨rfl, rfl⟩
    | _ => cases hkind

/-- No group can be split off in front of a fault. -/
theorem Faulty.not_group {tail : List String} {e : Error} (h : Faulty tail e) {g : Group}
    (hg : g.WellFormed) (rest : List String) : tail ≠ g.arguments ++ rest := by
  have hc : Kind.of "-c" = .stepLimit := by decide
  have hl : Kind.of "-l" = .level := by decide
  intro heq
  -- The kind of the first argument leaves one form for the group.
  cases h with
  | waiting h =>
    rcases h with rfl | rfl
    · obtain ⟨value, n, rfl⟩ := Group.eq_stepLimit ((Group.kind_eq hg heq).trans hc)
      cases (List.cons.inj heq).2
    · obtain ⟨value, l, rfl⟩ := Group.eq_level ((Group.kind_eq hg heq).trans hl)
      cases (List.cons.inj heq).2
  | stepLimit h =>
    obtain ⟨value, n, rfl⟩ := Group.eq_stepLimit ((Group.kind_eq hg heq).trans hc)
    obtain ⟨rfl, -⟩ := List.cons.inj (List.cons.inj heq).2
    cases h.symm.trans hg
  | level h =>
    obtain ⟨value, l, rfl⟩ := Group.eq_level ((Group.kind_eq hg heq).trans hl)
    obtain ⟨rfl, -⟩ := List.cons.inj (List.cons.inj heq).2
    cases h.symm.trans hg
  | unknown h =>
    have hkind := (Group.kind_eq hg heq).trans h
    cases g <;> cases hkind

/-- The groups in front of the arguments, as many as there are, and what stands behind them. -/
structure Complete (arguments : List String) (gs : List Group) (rest : List String) : Prop where
  spelled : ∀ g ∈ gs, g.Spelled
  split : arguments = gs.flatMap Group.arguments ++ rest
  longest : ∀ gs' rest', (∀ g ∈ gs', g.Spelled) → arguments = gs'.flatMap Group.arguments ++ rest' →
    gs' <+: gs

theorem isPrefixOf_groups {gs gs' : List Group} (h : ∀ g ∈ gs, g.WellFormed)
    (h' : ∀ g ∈ gs', g.WellFormed) {tail rest : List String}
    (htail : ∀ g : Group, g.WellFormed → ∀ rest, tail ≠ g.arguments ++ rest)
    (heq : gs.flatMap Group.arguments ++ tail = gs'.flatMap Group.arguments ++ rest) :
    gs' <+: gs := by
  induction gs' generalizing gs with
  | nil => exact List.nil_prefix
  | cons g' gs' ih =>
    rw [List.forall_mem_cons] at h'
    rw [List.flatMap_cons, List.append_assoc] at heq
    cases gs with
    | nil => exact absurd heq (htail g' h'.1 _)
    | cons g gs =>
      rw [List.forall_mem_cons] at h
      rw [List.flatMap_cons, List.append_assoc] at heq
      obtain ⟨rfl, hrest⟩ := Group.arguments_append_inj h.1 h'.1 heq
      exact List.cons_prefix_cons.2 ⟨rfl, ih h.2 h'.2 hrest⟩

/-- All arguments are groups, as many as there are, with nothing or a fault behind them. -/
theorem complete_and_fault (arguments : List String) :
    ∃ gs rest, Complete arguments gs rest ∧ (rest = [] ∨ ∃ e, Faulty rest e) := by
  obtain ⟨gs, rest, hgs, hrest, hsplit⟩ := groups_and_fault arguments
  have hstuck : ∀ g : Group, g.WellFormed → ∀ more, rest ≠ g.arguments ++ more := by
    intro g hg more
    obtain rfl | ⟨e, he⟩ := hrest
    · obtain ⟨first, others, hfirst, -⟩ := Group.exists_arguments hg
      rw [hfirst]
      exact nofun
    · exact he.not_group hg more
  refine ⟨gs, rest, ⟨forall_spelled_iff.2 hgs, hsplit, ?_⟩, hrest⟩
  intro gs' rest' hgs' hsplit'
  exact isPrefixOf_groups hgs (forall_spelled_iff.1 hgs') hstuck (hsplit.symm.trans hsplit')

/-! ## What groups do -/

/-- The number of steps that a group sets. -/
def Group.stepLimit? : Group → Option Nat
  | stepLimit _ n => some n
  | _ => none

/-- The level that a group sets. -/
def Group.level? : Group → Option Level
  | level _ l => some l
  | _ => none

/-- The options after groups: the last number of steps and the last level count, and a trace is
    printed from the first `-d` on. -/
structure Effect (o : Options) (gs : List Group) (o' : Options) : Prop where
  stepLimit : o'.stepLimit = (gs.filterMap Group.stepLimit?).getLast?.or o.stepLimit
  trace : o'.trace = true ↔ o.trace = true ∨ .trace ∈ gs
  level : o'.level = (gs.filterMap Group.level?).getLast?.getD o.level

theorem effect_foldl (o : Options) (gs : List Group) : Effect o gs (gs.foldl Group.apply o) := by
  refine ⟨?_, foldl_apply_trace gs o, ?_⟩
  · induction gs generalizing o with
    | nil => rfl
    | cons g gs ih =>
      rw [List.foldl_cons, ih]
      cases g <;> simp [Group.apply, Group.stepLimit?, List.filterMap_cons, List.getLast?_cons]
  · induction gs generalizing o with
    | nil => rfl
    | cons g gs ih =>
      rw [List.foldl_cons, ih]
      cases g <;> simp [Group.apply, Group.level?, List.filterMap_cons, List.getLast?_cons]

theorem parse_of_groups {gs : List Group} (h : ∀ g ∈ gs, g.WellFormed) (o : Options) :
    o.parse (gs.flatMap Group.arguments) =
      (gs.foldl Group.apply o, .ok (gs.filterMap Group.positional?)) := by
  have hparse := parse_groups h o []
  rw [List.append_nil] at hparse
  rw [hparse, Options.parse]
  exact congrArg (Prod.mk _) (congrArg Except.ok (List.append_nil _))

theorem parse_of_fault {gs : List Group} (h : ∀ g ∈ gs, g.WellFormed) {rest : List String}
    {e : Error} (he : Faulty rest e) (o : Options) :
    o.parse (gs.flatMap Group.arguments ++ rest) = (gs.foldl Group.apply o, .error e) := by
  rw [parse_groups h, he.parse]
  rfl

/-- The message about arguments that start with no group: it names the argument that cannot be
    taken, or says that one is missing. -/
inductive Blames : List String → String → Prop
  | missing {option : String} (h : option = "-c" ∨ option = "-l") :
      Blames [option] "Missing argument"
  | stepLimit (value : String) (rest : List String) :
      Blames ("-c" :: value :: rest) ("Invalid value for option -c: " ++ value)
  | level (value : String) (rest : List String) :
      Blames ("-l" :: value :: rest) ("Unknown log level: " ++ value)
  | option {argument : String} (hc : argument ≠ "-c") (hl : argument ≠ "-l") (rest : List String) :
      Blames (argument :: rest) ("Unknown option: " ++ argument)

theorem Faulty.blames {tail : List String} {e : Error} (h : Faulty tail e) :
    Blames tail e.text := by
  cases h with
  | waiting h => exact .missing h
  | stepLimit _ rest => exact .stepLimit _ rest
  | level _ rest => exact .level _ rest
  | unknown h rest =>
    refine .option ?_ ?_ rest
    · rintro rfl
      exact absurd h (by decide)
    · rintro rfl
      exact absurd h (by decide)

/-- Whatever is found behind the groups, their effect has taken place. -/
theorem Complete.effect {arguments rest : List String} {gs : List Group}
    (h : Complete arguments gs rest) (hrest : rest = [] ∨ ∃ e, Faulty rest e) (o : Options) :
    (o.parse arguments).1 = gs.foldl Group.apply o := by
  have hgs := forall_spelled_iff.1 h.spelled
  rw [h.split]
  obtain rfl | ⟨e, he⟩ := hrest
  · rw [List.append_nil, parse_of_groups hgs]
  · rw [parse_of_fault hgs he]

/-! ## Several lists of arguments -/

/-- The options after several lists of arguments, whether they are accepted or not. -/
def parseAll (o : Options) (calls : List (List String)) : Options :=
  calls.foldl (fun o arguments => (o.parse arguments).1) o

/-- Several lists of arguments do what all their groups do in a row. -/
theorem parseAll_groups (o : Options) (calls : List (List String)) :
    ∃ gss : List (List Group),
      List.Forall₂ (fun arguments gs => ∃ rest, Complete arguments gs rest) calls gss ∧
      (∀ g ∈ gss.flatten, g.Spelled) ∧ o.parseAll calls = gss.flatten.foldl Group.apply o := by
  induction calls generalizing o with
  | nil => exact ⟨[], .nil, by simp, rfl⟩
  | cons arguments calls ih =>
    obtain ⟨gs, rest, hcomplete, hrest⟩ := complete_and_fault arguments
    obtain ⟨gss, hall, hspelled, hparse⟩ := ih (o.parse arguments).1
    refine ⟨gs :: gss, .cons ⟨rest, hcomplete⟩ hall, ?_, ?_⟩
    · exact List.forall_mem_append.2 ⟨hcomplete.spelled, hspelled⟩
    · rw [List.flatten_cons, List.foldl_append, ← hcomplete.effect hrest]
      exact hparse

/-- The bound of a machine that obeys the options is the last number of steps, if one was given. -/
theorem Effect.bound {o o' : Options} {gs : List Group} (h : Effect o gs o') :
    o'.bound = (gs.filterMap Group.stepLimit?).getLast?.getD o.bound := by
  rw [Options.bound, h.stepLimit, Options.bound]
  cases (gs.filterMap Group.stepLimit?).getLast? <;> rfl

/-- Groups leave the bound a positive machine integer. -/
theorem Effect.bound_range {o o' : Options} {gs : List Group} (h : Effect o gs o')
    (hgs : ∀ g ∈ gs, g.Spelled) (ho : 1 ≤ o.bound ∧ o.bound ≤ 0x7FFFFFFFFFFFFFFF) :
    1 ≤ o'.bound ∧ o'.bound ≤ 0x7FFFFFFFFFFFFFFF := by
  rw [h.bound]
  cases hlast : (gs.filterMap Group.stepLimit?).getLast? with
  | none => exact ho
  | some n =>
    obtain ⟨g, hg, hn⟩ := List.mem_filterMap.1 (List.mem_of_getLast? hlast)
    have hspelled := hgs g hg
    cases g with
    | stepLimit value k =>
      cases hn
      exact hspelled.2
    | _ => cases hn

/-- Arguments are accepted exactly if they are groups of the option language one after the other.
    Then the positional arguments remain in their order, the last number of steps and the last
    level count, and a trace is printed if `-d` was given. If they are not accepted, the longest row
    of groups in front has had its effect, and the message names the argument behind it that
    cannot be taken, or says that one is missing. Several lists of arguments add up: they leave
    what all their groups leave in a row, and a bound that a machine can obey. -/
theorem parse_option_language (o : Options) :
    (∀ arguments : List String,
      ((∃ positional, (o.parse arguments).2 = .ok positional) ↔
        ∃ gs : List Group, (∀ g ∈ gs, g.Spelled) ∧ arguments = gs.flatMap Group.arguments) ∧
      (∀ gs : List Group, (∀ g ∈ gs, g.Spelled) → arguments = gs.flatMap Group.arguments →
        (o.parse arguments).2 = .ok (gs.filterMap Group.positional?) ∧
          Effect o gs (o.parse arguments).1) ∧
      ∀ e, (o.parse arguments).2 = .error e → ∃ gs rest, Complete arguments gs rest ∧
        Effect o gs (o.parse arguments).1 ∧ Blames rest e.text) ∧
    ∀ calls : List (List String), ∃ gss : List (List Group),
      List.Forall₂ (fun arguments gs => ∃ rest, Complete arguments gs rest) calls gss ∧
      Effect o gss.flatten (o.parseAll calls) ∧
      (o.parseAll calls).bound = (gss.flatten.filterMap Group.stepLimit?).getLast?.getD o.bound ∧
      (1 ≤ o.bound ∧ o.bound ≤ 0x7FFFFFFFFFFFFFFF →
        1 ≤ (o.parseAll calls).bound ∧ (o.parseAll calls).bound ≤ 0x7FFFFFFFFFFFFFFF) := by
  constructor
  · intro arguments
    obtain ⟨gs, rest, hcomplete, hrest⟩ := complete_and_fault arguments
    have hgs := forall_spelled_iff.1 hcomplete.spelled
    refine ⟨⟨?_, ?_⟩, ?_, ?_⟩
    · rintro ⟨positional, hok⟩
      obtain rfl | ⟨e, he⟩ := hrest
      · exact ⟨gs, hcomplete.spelled, hcomplete.split.trans (List.append_nil _)⟩
      · rw [hcomplete.split, parse_of_fault hgs he] at hok
        cases hok
    · rintro ⟨gs', hgs', rfl⟩
      exact ⟨_, congrArg Prod.snd (parse_of_groups (forall_spelled_iff.1 hgs') o)⟩
    · rintro gs' hgs' rfl
      rw [parse_of_groups (forall_spelled_iff.1 hgs')]
      exact ⟨rfl, effect_foldl o gs'⟩
    · intro e herror
      refine ⟨gs, rest, hcomplete, ?_, ?_⟩
      · rw [hcomplete.effect hrest]
        exact effect_foldl o gs
      · rw [hcomplete.split] at herror
        obtain rfl | ⟨e', he⟩ := hrest
        · rw [List.append_nil, parse_of_groups hgs] at herror
          cases herror
        · rw [parse_of_fault hgs he] at herror
          cases herror
          exact he.blames
  · intro calls
    obtain ⟨gss, hall, hspelled, hparse⟩ := parseAll_groups o calls
    have heffect : Effect o gss.flatten (o.parseAll calls) := hparse ▸ effect_foldl o gss.flatten
    exact ⟨gss, hall, heffect, heffect.bound, heffect.bound_range hspelled⟩

/-- A negative number is no option, and a number of steps may have white space, a plus sign and
    zeros in front. A `-d` behind `-c` is its argument, and no number of steps; the level that was
    chosen before it stays. Both calls one after the other leave a positive bound. -/
theorem parse_option_language_taken_option :
    (∀ g ∈ [Group.positional "-5", .stepLimit " +07" 7, .trace], g.Spelled) ∧
      (({} : Options).parse ["-5", "-c", " +07", "-d"]).2 = .ok ["-5"] ∧
      Effect {} [.positional "-5", .stepLimit " +07" 7, .trace] ⟨some 7, true, .info⟩ ∧
      (({} : Options).parse ["-l", "debug", "-c", "-d"]).2 = .error (.invalidStepLimit "-d") ∧
      (∃ gs rest, Complete ["-l", "debug", "-c", "-d"] gs rest ∧
        Effect {} gs ⟨none, false, .debug⟩ ∧ Blames rest "Invalid value for option -c: -d") ∧
      let calls := [["-5", "-c", " +07", "-d"], ["-l", "debug", "-c", "-d"]]
      1 ≤ (({} : Options).parseAll calls).bound := by
  have hspelled : ∀ g ∈ [Group.positional "-5", .stepLimit " +07" 7, .trace], g.Spelled := by
    rw [forall_spelled_iff]
    simp only [List.forall_mem_cons, Group.WellFormed]
    exact ⟨by decide, by decide, trivial, by simp⟩
  obtain ⟨hone, hall⟩ := parse_option_language {}
  obtain ⟨hok, heffect⟩ := (hone ["-5", "-c", " +07", "-d"]).2.1 _ hspelled rfl
  have herror : (({} : Options).parse ["-l", "debug", "-c", "-d"]).2 =
      .error (.invalidStepLimit "-d") := by decide
  obtain ⟨gss, -, -, -, hbound⟩ := hall [["-5", "-c", " +07", "-d"], ["-l", "debug", "-c", "-d"]]
  exact ⟨hspelled, hok, heffect, herror, (hone _).2.2 _ herror, (hbound (by decide)).1⟩

end Fractran.Options
