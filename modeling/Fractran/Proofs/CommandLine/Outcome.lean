/-
  What a call of the command line program comes to.

  `Provides` says which text a source has, standard input or a file, and opening a source gives
  that text (`openIn_eq_ok_iff`). `Answers` says once what a call can answer: refused options, the
  help text, the usage line, a failure before the first step, or a whole run (`answers_respond`).
  Everything that can fail is done before a line is printed (`Loads`), and a log of any level
  writes errors (`write_error`), so a call either prints a run or reports exactly one fault.
-/
import Fractran.CommandLine.Job
import Fractran.Proofs.CommandLine.Options
import Fractran.Proofs.Machine.Run
import Fractran.Proofs.Source.Parser

namespace Fractran.CommandLine

/-! ## Diagnostics -/

/-- No log drops an error. -/
theorem write_error (log : Log) (message : String) :
    log.write .error message = [⟨.error, message⟩] := by
  have hrank : log.level.rank ≤ Level.error.rank := by cases log.level <;> decide
  simp [Log.write, Log.accepts, hrank]

/-- Entries that stand beside a fault: none is an error, and only a log at debug level has any. -/
def Chatter (o : Options) (entries : List Log.Entry) : Prop :=
  ∀ e ∈ entries, o.level = .debug ∧ (e.level = .info ∨ e.level = .debug)

theorem chatter_nil (o : Options) : Chatter o [] := List.forall_mem_nil _

theorem chatter_write (o : Options) {level : Level} (h : level = .info ∨ level = .debug)
    (message : String) : Chatter o ((commandLog o).write level message) := by
  intro e he
  unfold Log.write at he
  split_ifs at he with haccepts
  · obtain rfl := List.mem_singleton.1 he
    refine ⟨?_, h⟩
    by_contra hlevel
    rcases h with rfl | rfl <;> simp [Log.accepts, commandLog, hlevel, Level.rank] at haccepts
  · cases he

theorem chatter_opening (o : Options) : Chatter o (opening o) := chatter_write o (.inl rfl) _

theorem chatter_unpacked (o : Options) (origin : Origin) (source : Source.Stream) :
    Chatter o (unpackedEntries o origin source) := by
  unfold unpackedEntries
  split
  next => exact chatter_nil o
  next =>
    split
    next => exact chatter_write o (.inr rfl) _
    next => exact chatter_nil o

theorem chatter_reading (console : Console) (o : Options) (origin : Origin) (numeral : String) :
    Chatter o (readingEntries console o origin numeral) := by
  unfold readingEntries
  split
  next => exact List.forall_mem_append.2 ⟨chatter_opening o, chatter_unpacked o origin _⟩
  next => exact chatter_opening o

theorem chatter_loaded (console : Console) (o : Options) (origin : Origin) (numeral : String)
    (p : Program) : Chatter o (readingEntries console o origin numeral ++ loadedEntries o p) :=
  List.forall_mem_append.2 ⟨chatter_reading console o origin numeral, chatter_write o (.inr rfl) _⟩

/-- How to call the program. -/
def usageLine (piped : Bool) : String :=
  if piped then "Usage: fractran <n>" else "Usage: fractran <file> <n>"

/-- The usage line, or an error. -/
def Diagnostic.IsFault (piped : Bool) (d : Diagnostic) : Prop :=
  d = .usage (usageLine piped) ∨ ∃ e : Error, d = .entry ⟨.error, e.message⟩

/-! ## Commands -/

/-- The source that arguments select, and the numeral of the seed. -/
inductive Selects (piped : Bool) : List String → Origin → String → Prop
  | input (numeral : String) : Selects piped ["", numeral] .standardInput numeral
  | file {path : String} (h : path ≠ "") (numeral : String) :
      Selects piped [path, numeral] (.file path) numeral
  | pipe (h : piped = true) (numeral : String) : Selects piped [numeral] .standardInput numeral

theorem Selects.unique {piped : Bool} {positional : List String} {origin origin' : Origin}
    {numeral numeral' : String} (h : Selects piped positional origin numeral)
    (h' : Selects piped positional origin' numeral') : origin' = origin ∧ numeral' = numeral := by
  cases h with
  | input =>
    cases h' with
    | input => exact ⟨rfl, rfl⟩
    | file hp => exact absurd rfl hp
  | file hp =>
    cases h' with
    | input => exact absurd rfl hp
    | file => exact ⟨rfl, rfl⟩
  | pipe =>
    cases h' with
    | pipe => exact ⟨rfl, rfl⟩

/-- When arguments make a command. -/
def Command.MadeBy (piped : Bool) (positional : List String) : Command → Prop
  | .help => positional.head? = some "help"
  | .run origin numeral =>
      positional.head? ≠ some "help" ∧ Selects piped positional origin numeral
  | .usage line =>
      positional.head? ≠ some "help" ∧ line = usageLine piped ∧
        ∀ origin numeral, ¬ Selects piped positional origin numeral

theorem select_madeBy (piped : Bool) (positional : List String) :
    (Command.select piped positional).MadeBy piped positional := by
  unfold Command.select
  split
  next => rfl
  next numeral => exact ⟨by simp, .input numeral⟩
  next path numeral hhelp hinput => exact ⟨by simpa using hhelp, .file hinput numeral⟩
  next numeral hhelp =>
    split_ifs with hp
    · exact ⟨by simpa using hhelp, .pipe hp numeral⟩
    · refine ⟨by simpa using hhelp, (if_neg hp).symm, ?_⟩
      rintro origin _ ⟨⟩
      contradiction
  next hhelp _ hpair hsingle =>
    refine ⟨?_, rfl, ?_⟩
    · intro h
      obtain ⟨tail, rfl⟩ := List.head?_eq_some_iff.1 h
      exact hhelp tail rfl
    · intro origin numeral h
      cases h with
      | input => exact hpair _ _ rfl
      | file => exact hpair _ _ rfl
      | pipe => exact hsingle _ rfl

/-! ## Sources -/

/-- The names of compressed files: something, and `.gz` behind it. -/
def NamesCompressed (path : String) : Prop := ∃ stem : String, stem ≠ "" ∧ path = stem ++ ".gz"

theorem isCompressedName_iff (path : String) :
    isCompressedName path = true ↔ NamesCompressed path := by
  have hsuffix : path.endsWith ".gz" = true ↔ ['.', 'g', 'z'] <:+ path.toList := by
    have hslice := @String.Slice.endsWith_string_iff ".gz" path.toSlice
    rwa [String.copy_toSlice] at hslice
  rw [isCompressedName, Bool.and_eq_true, decide_eq_true_iff, hsuffix]
  constructor
  · rintro ⟨hlength, stem, hstem⟩
    have hpath : path = String.ofList stem ++ ".gz" := by
      rw [← String.toList_inj, String.toList_append, String.toList_ofList, ← hstem]
      rfl
    refine ⟨String.ofList stem, ?_, hpath⟩
    intro hempty
    rw [hempty] at hpath
    rw [hpath] at hlength
    exact absurd hlength (by decide)
  · rintro ⟨stem, hne, rfl⟩
    refine ⟨?_, stem.toList, by rw [String.toList_append]; rfl⟩
    have hpos : 0 < stem.length := by
      rw [Nat.pos_iff_ne_zero, Ne, String.length_eq_zero_iff]
      exact hne
    rw [String.length_append]
    show 3 < stem.length + 3
    omega

/-- What is read from a source up to its end: all of standard input, the content of the plain
    file with the path, or what decompression makes of the compressed one. A source that cannot
    be opened, or that breaks off, has no such text. -/
inductive Provides (console : Console) : Origin → String → Prop
  | input (h : console.brokenInput = false) : Provides console .standardInput console.input
  | plain {path text : String} (hname : ¬ NamesCompressed path)
      (h : console.files.plain path = some ⟨text, false⟩) : Provides console (.file path) text
  | unpacked {path text : String} (hname : NamesCompressed path)
      (h : console.files.unpack path = some (.ok text)) : Provides console (.file path) text

theorem unpackedSource_eq_ok_iff {path text : String} {content : Option (Except String String)} :
    Files.unpackedSource path content = .ok ⟨text, false⟩ ↔ content = some (.ok text) := by
  unfold Files.unpackedSource
  split <;> simp

theorem plainSource_eq_ok_iff {path : String} {stream : Source.Stream}
    {content : Option Source.Stream} :
    Files.plainSource path content = .ok stream ↔ content = some stream := by
  unfold Files.plainSource
  split <;> simp

/-- Opening gives what can be read. -/
theorem openIn_eq_ok_iff (console : Console) (origin : Origin) (text : String) :
    origin.openIn console = .ok ⟨text, false⟩ ↔ Provides console origin text := by
  cases origin with
  | standardInput =>
    rw [Origin.openIn, Except.ok.injEq, Source.Stream.mk.injEq]
    constructor
    · rintro ⟨rfl, h⟩
      exact .input h
    · rintro ⟨h⟩
      exact ⟨rfl, h⟩
  | file path =>
    rw [Origin.openIn, Files.openFile]
    split_ifs with hname
    · rw [Files.openCompressed, if_pos hname, unpackedSource_eq_ok_iff]
      rw [isCompressedName_iff] at hname
      constructor
      · exact .unpacked hname
      · rintro (_ | ⟨hplain, -⟩ | ⟨-, h⟩)
        · exact absurd hname hplain
        · exact h
    · rw [plainSource_eq_ok_iff]
      rw [isCompressedName_iff] at hname
      constructor
      · exact .plain hname
      · rintro (_ | ⟨-, h⟩ | ⟨hunpacked, -⟩)
        · exact h
        · exact absurd hunpacked hname

/-! ## Requests -/

/-- A source, what is read from it and what that spells, and a numeral with its value. -/
structure Request where
  origin : Origin
  text : String
  fractions : List Source.Written
  numeral : String
  seed : Integer

/-- The arguments select the source and the numeral; the source can be read to its end and
    spells fractions without a zero, and the numeral is that of a positive integer. -/
structure Request.Fits (console : Console) (positional : List String) (q : Request) : Prop where
  selected : Selects (!console.terminal) positional q.origin q.numeral
  provided : Provides console q.origin q.text
  spelled : Source.Spells q.text.toList q.fractions
  nonzero : ∀ w ∈ q.fractions, w.numValue ≠ 0 ∧ w.denValue ≠ 0
  read : Integer.read q.numeral = .ok q.seed
  positive : 0 < q.seed.toInt

/-- A program that is spelled has positive fractions iff no numerator is zero. -/
theorem fractions_pos_iff {ws : List Source.Written} (h : ∀ w ∈ ws, w.WellFormed)
    (hz : ∀ w ∈ ws, w.denValue ≠ 0) :
    (∀ f ∈ ws.map Source.Written.fraction, 0 < f.num.toInt) ↔ ∀ w ∈ ws, w.numValue ≠ 0 := by
  rw [List.forall_mem_map]
  exact forall₂_congr fun w hw => Source.Written.fraction_pos_iff (h w hw) (hz w hw)

/-- What a call needs before its first step. -/
structure Loads (console : Console) (o : Options) (origin : Origin) (numeral : String)
    (n : Integer) (p : Program) (m : Machine) : Prop where
  read : Integer.read numeral = .ok n
  parsed : ∃ s, origin.openIn console = .ok s ∧ s.parse = .ok p
  made : Machine.make p o.bound o.level = .ok m
  positive : 0 < n.toInt

theorem Loads.fits {console : Console} {o : Options} {origin : Origin} {numeral : String}
    {n : Integer} {p : Program} {m : Machine} (h : Loads console o origin numeral n p m)
    {positional : List String} (hs : Selects (!console.terminal) positional origin numeral) :
    ∃ q : Request, q.Fits console positional ∧ (Source.Stream.mk q.text false).parse = .ok p ∧
      q.seed = n := by
  obtain ⟨⟨text, broken⟩, hopen, hparse⟩ := h.parsed
  obtain rfl : broken = false := Source.Stream.broken_of_parse_eq_ok hparse
  obtain ⟨ws, hspells, hz, hfractions⟩ :=
    (Source.parse_eq_ok_iff _ _).1 ((Source.Stream.parse_eq_ok_iff _ _).1 hparse)
  have hpos := (Machine.make_eq_ok_iff.1 h.made).2.1
  rw [hfractions, fractions_pos_iff hspells.wellFormed hz] at hpos
  have hprovided := (openIn_eq_ok_iff console origin text).1 hopen
  refine ⟨⟨origin, text, ws, numeral, n⟩, ⟨hs, hprovided, hspells, ?_, h.read, h.positive⟩, hparse,
    rfl⟩
  intro w hw
  exact ⟨hpos w hw, hz w hw⟩

theorem Request.Fits.loads {console : Console} {positional : List String} {q : Request}
    (h : q.Fits console positional) {o : Options} (hb : 0 < o.bound) :
    ∃ p m, Loads console o q.origin q.numeral q.seed p m := by
  have hz : ∀ w ∈ q.fractions, w.denValue ≠ 0 := fun w hw => (h.nonzero w hw).2
  have hn : ∀ w ∈ q.fractions, w.numValue ≠ 0 := fun w hw => (h.nonzero w hw).1
  let p : Program := ⟨q.fractions.map Source.Written.fraction⟩
  have hparse : (Source.Stream.mk q.text false).parse = .ok p :=
    (Source.Stream.parse_eq_ok_iff _ _).2
      ((Source.parse_eq_ok_iff _ _).2 ⟨q.fractions, h.spelled, hz, rfl⟩)
  have hpos := (fractions_pos_iff h.spelled.wellFormed hz).2 hn
  have hmade : Machine.make p o.bound o.level = .ok ⟨p, o.bound, o.level == .debug⟩ :=
    Machine.make_eq_ok_iff.2 ⟨by exact_mod_cast hb, hpos, rfl⟩
  have hopen := (openIn_eq_ok_iff console q.origin q.text).2 h.provided
  exact ⟨p, _, h.read, ⟨_, hopen, hparse⟩, hmade, h.positive⟩

/-! ## Runs -/

/-- What a call prints for each value. -/
def mode (o : Options) : Mode := if o.trace then .trace else .values

theorem load_eq_ok_iff {numeral : String} {stream : Except Error Source.Stream} {n : Integer}
    {p : Program} :
    load numeral stream = .ok (n, p) ↔
      Integer.read numeral = .ok n ∧ ∃ s, stream = .ok s ∧ s.parse = .ok p := by
  simp only [load, bind_eq_ok_iff]
  constructor
  · rintro ⟨n', hread, s, hs, p', hparse, h⟩
    cases h
    exact ⟨hread, s, hs, hparse⟩
  · rintro ⟨hread, s, hs, hparse⟩
    exact ⟨n, hread, s, hs, p, hparse, rfl⟩

theorem make_eq_ok_iff {o : Options} {n : Integer} {p : Program} {job : Job} :
    Job.make o n p = .ok job ↔
      ∃ m, Machine.make p o.bound o.level = .ok m ∧ 0 < n.toInt ∧
        job = ⟨m, { value := .ofInteger n }, mode o, commandLog o⟩ := by
  simp only [Job.make, bind_eq_ok_iff, Machine.start_eq_ok_iff]
  constructor
  · rintro ⟨m, hm, r, ⟨hn, rfl⟩, h⟩
    cases h
    exact ⟨m, hm, hn, rfl⟩
  · rintro ⟨m, hm, hn, rfl⟩
    exact ⟨m, hm, _, ⟨hn, rfl⟩, rfl⟩

theorem runProgram_of_loads {console : Console} {o : Options} {origin : Origin}
    {numeral : String} {n : Integer} {p : Program} {m : Machine}
    (h : Loads console o origin numeral n p m) :
    ∃ status t diagnostics, m.runFrom (mode o) n = .ok (status, t) ∧
      runProgram console o origin numeral = ⟨0, t.lines.toList, diagnostics⟩ := by
  have hload := load_eq_ok_iff.2 ⟨h.read, h.parsed⟩
  have hjob := make_eq_ok_iff.2 ⟨m, h.made, h.positive, rfl⟩
  have hrun := Machine.runFrom_eq_drive m (mode o) h.positive
  unfold runProgram
  rw [hload]
  simp only [hjob]
  exact ⟨_, _, _, hrun, rfl⟩

theorem runProgram_of_not_loads {console : Console} {o : Options} {origin : Origin}
    {numeral : String} (h : ∀ n p m, ¬ Loads console o origin numeral n p m) :
    ∃ before e, Chatter o before ∧
      runProgram console o origin numeral = failure (commandLog o) before e := by
  unfold runProgram
  split
  next e _ => exact ⟨_, e, chatter_reading console o origin numeral, rfl⟩
  next n p hload =>
    obtain ⟨hread, hparsed⟩ := load_eq_ok_iff.1 hload
    cases hjob : Job.make o n p with
    | error e => exact ⟨_, e, chatter_loaded console o origin numeral p, rfl⟩
    | ok job =>
      obtain ⟨m, hmade, hpos, -⟩ := make_eq_ok_iff.1 hjob
      exact absurd ⟨hread, hparsed, hmade, hpos⟩ (h n p m)

/-! ## Answers -/

/-- What a call can answer. -/
inductive Answers (console : Console) (arguments : List String) : Response → Prop
  | rejected {o : Options} {e : Error} (h : ({} : Options).parse arguments = (o, .error e)) :
      Answers console arguments (failure { level := o.level } [] e)
  | help {o : Options} {positional : List String}
      (h : ({} : Options).parse arguments = (o, .ok positional))
      (hhelp : positional.head? = some "help") :
      Answers console arguments ⟨0, helpLines, (opening o).map .entry⟩
  | usage {o : Options} {positional : List String}
      (h : ({} : Options).parse arguments = (o, .ok positional))
      (hhelp : positional.head? ≠ some "help")
      (hfits : ∀ q : Request, ¬ q.Fits console positional) :
      Answers console arguments ⟨1, [], [.usage (usageLine !console.terminal)]⟩
  | failed {o : Options} {positional : List String} {before : List Log.Entry} {e : Error}
      (h : ({} : Options).parse arguments = (o, .ok positional))
      (hhelp : positional.head? ≠ some "help")
      (hfits : ∀ q : Request, ¬ q.Fits console positional) (hbefore : Chatter o before) :
      Answers console arguments (failure (commandLog o) before e)
  | ran {o : Options} {positional : List String} {q : Request} {p : Program} {m : Machine}
      {status : Status} {t : Transcript} {diagnostics : List Diagnostic}
      (h : ({} : Options).parse arguments = (o, .ok positional))
      (hhelp : positional.head? ≠ some "help") (hfits : q.Fits console positional)
      (hparse : (Source.Stream.mk q.text false).parse = .ok p)
      (hmade : Machine.make p o.bound o.level = .ok m)
      (hrun : m.runFrom (mode o) q.seed = .ok (status, t)) :
      Answers console arguments ⟨0, t.lines.toList, diagnostics⟩

theorem bound_pos {o : Options} {arguments positional : List String}
    (h : ({} : Options).parse arguments = (o, .ok positional)) : 0 < o.bound := by
  unfold Options.bound
  cases hlimit : o.stepLimit with
  | none => decide
  | some n => exact Options.parse_stepLimit_pos h n hlimit

/-- Every answer of the program is one of these. -/
theorem answers_respond (console : Console) (arguments : List String) :
    Answers console arguments (respond console arguments) := by
  unfold respond
  split
  next o e h => exact .rejected h
  next o positional h =>
    have hmade := select_madeBy (!console.terminal) positional
    split
    next hselect =>
      rw [hselect] at hmade
      exact .help h hmade
    next line hselect =>
      rw [hselect] at hmade
      obtain ⟨hhelp, rfl, hno⟩ := hmade
      exact .usage h hhelp fun q hq => hno _ _ hq.selected
    next origin numeral hselect =>
      rw [hselect] at hmade
      obtain ⟨hhelp, hs⟩ := hmade
      -- What is loaded before the first step decides between a run and a failure.
      by_cases hloads : ∃ n p m, Loads console o origin numeral n p m
      · obtain ⟨n, p, m, hl⟩ := hloads
        obtain ⟨q, hq, hparse, rfl⟩ := hl.fits hs
        obtain ⟨status, t, diagnostics, hrun, hresponse⟩ := runProgram_of_loads hl
        rw [hresponse]
        exact .ran h hhelp hq hparse hl.made hrun
      · have hnot : ∀ n p m, ¬ Loads console o origin numeral n p m :=
          fun n p m hl => hloads ⟨n, p, m, hl⟩
        obtain ⟨before, e, hbefore, hresponse⟩ := runProgram_of_not_loads hnot
        rw [hresponse]
        refine .failed h hhelp ?_ hbefore
        intro q hq
        obtain ⟨rfl, rfl⟩ := hs.unique hq.selected
        obtain ⟨p, m, hl⟩ := hq.loads (bound_pos h)
        exact hnot _ p m hl

namespace Answers

variable {console : Console} {arguments : List String} {response : Response}

theorem exit_eq (h : Answers console arguments response) :
    response.exit = 0 ∨ response.exit = 1 := by
  cases h with
  | rejected => exact .inr rfl
  | help => exact .inl rfl
  | usage => exact .inr rfl
  | failed => exact .inr rfl
  | ran => exact .inl rfl

/-- A call succeeds iff it asks for help or makes a request that fits. -/
theorem exit_eq_zero_iff (h : Answers console arguments response) :
    response.exit = 0 ↔ ∃ o positional, ({} : Options).parse arguments = (o, .ok positional) ∧
      (positional.head? = some "help" ∨ ∃ q : Request, q.Fits console positional) := by
  cases h with
  | rejected h => simp [failure, h]
  | help h hhelp => simp [h, hhelp]
  | usage h hhelp hfits => simp [h, hhelp, hfits]
  | failed h hhelp hfits => simp [failure, h, hhelp, hfits]
  | ran h hhelp hfits => simpa [h, hhelp] using ⟨_, hfits⟩

/-- A call that succeeds without asking for help prints a run. -/
theorem output_eq (h : Answers console arguments response) {o : Options}
    {positional : List String} (hp : ({} : Options).parse arguments = (o, .ok positional))
    (hhelp : positional.head? ≠ some "help") (hexit : response.exit = 0) :
    ∃ (q : Request) (p : Program) (m : Machine) (status : Status) (t : Transcript),
      q.Fits console positional ∧ (Source.Stream.mk q.text false).parse = .ok p ∧
      Machine.make p o.bound o.level = .ok m ∧
      m.runFrom (mode o) q.seed = .ok (status, t) ∧ response.output = t.lines.toList := by
  cases h with
  | rejected => cases hexit
  | help h hhelp' =>
    cases hp.symm.trans h
    exact absurd hhelp' hhelp
  | usage => cases hexit
  | failed => cases hexit
  | ran h _ hfits hparse hmade hrun =>
    cases hp.symm.trans h
    exact ⟨_, _, _, _, _, hfits, hparse, hmade, hrun, rfl⟩

/-- A call that fails prints nothing, and its last diagnostic is its only fault. -/
theorem fault (h : Answers console arguments response) (hexit : response.exit = 1) :
    response.output = [] ∧ ∃ (before : List Log.Entry) (d : Diagnostic),
      response.diagnostics = before.map .entry ++ [d] ∧ d.IsFault (!console.terminal) ∧
      Chatter (({} : Options).parse arguments).1 before := by
  cases h with
  | @rejected o e h =>
    refine ⟨rfl, [], .entry ⟨.error, e.message⟩, ?_, .inr ⟨e, rfl⟩, chatter_nil _⟩
    simp [failure, write_error]
  | help => cases hexit
  | usage => exact ⟨rfl, [], _, rfl, .inl rfl, chatter_nil _⟩
  | @failed o positional before e h _ _ hbefore =>
    refine ⟨rfl, before, .entry ⟨.error, e.message⟩, ?_, .inr ⟨e, rfl⟩, by rwa [h]⟩
    simp [failure, write_error]
  | ran => cases hexit

end Answers

/-- A call exits with zero iff its options are accepted and it asks for help, or it selects a
    source that can be read, spells fractions without a zero, and comes with a positive integer.
    Then a call that does not ask for help prints the run of that program from that integer, as a
    trace iff `-d` was given, up to the number of steps that was given or else without a bound.
    Any other call exits with one, prints nothing and reports one fault, whatever its log. -/
theorem respond_outcome (console : Console) (arguments : List String) :
    ((respond console arguments).exit = 0 ∨ (respond console arguments).exit = 1) ∧
    ((respond console arguments).exit = 0 ↔
      ∃ o positional, ({} : Options).parse arguments = (o, .ok positional) ∧
        (positional.head? = some "help" ∨ ∃ q : Request, q.Fits console positional)) ∧
    (∀ o positional, ({} : Options).parse arguments = (o, .ok positional) →
      positional.head? ≠ some "help" → (respond console arguments).exit = 0 →
      (∀ n, o.stepLimit = some n → 0 < n) ∧
      ∃ (q : Request) (p : Program) (m : Machine) (status : Status) (t : Transcript),
        q.Fits console positional ∧ (({} : Source.Parser).parse ⟨q.text, false⟩).1 = .ok p ∧
        Machine.make p (o.stepLimit.getD Machine.unbounded) o.level = .ok m ∧
        m.runFrom (if "-d" ∈ arguments then .trace else .values) q.seed = .ok (status, t) ∧
        (respond console arguments).output = t.lines.toList) ∧
    ((respond console arguments).exit = 1 →
      (respond console arguments).output = [] ∧
      ∃ (before : List Log.Entry) (d : Diagnostic),
        (respond console arguments).diagnostics = before.map .entry ++ [d] ∧
        d.IsFault (!console.terminal) ∧ Chatter (({} : Options).parse arguments).1 before) := by
  have h := answers_respond console arguments
  refine ⟨h.exit_eq, h.exit_eq_zero_iff, ?_, h.fault⟩
  intro o positional hp hhelp hexit
  refine ⟨Options.parse_stepLimit_pos hp, ?_⟩
  have hmode : mode o = if "-d" ∈ arguments then .trace else .values :=
    if_congr (Options.parse_trace_iff hp) rfl rfl
  obtain ⟨q, p, m, status, t, hfits, hparse, hmade, hrun, houtput⟩ := h.output_eq hp hhelp hexit
  rw [← Source.Parser.parse_eq {}] at hparse
  rw [hmode] at hrun
  exact ⟨q, p, m, status, t, hfits, hparse, hmade, hrun, houtput⟩

/-- Wherever `3/2` is read from, with the numeral `4` it makes a request. -/
theorem fits_three_halves {console : Console} {positional : List String} {origin : Origin}
    (hs : Selects (!console.terminal) positional origin "4") (hr : Provides console origin "3/2") :
    Request.Fits console positional ⟨origin, "3/2", [⟨['3'], ['2']⟩], "4", .ofInt64 4⟩ := by
  have htext : "3/2".toList = Source.Written.text ⟨['3'], ['2']⟩ := by decide
  have hread : Integer.read "4" = .ok (.ofInt64 4) := by decide +kernel
  have hpos : 0 < (Integer.ofInt64 4).toInt := by decide
  refine ⟨hs, hr, ?_, ?_, hread, hpos⟩
  · show Source.Spells "3/2".toList _
    rw [htext]
    exact .one ⟨Source.isNumeral_singleton rfl, Source.isNumeral_singleton rfl⟩
  · rw [List.forall_mem_singleton]
    decide

/-- At a terminal, `3/2` from a file in a directory is traced from `4` for two steps; from
    standard input it is run to its end. Where standard input breaks off, the same call fails. -/
theorem respond_outcome_file_and_input :
    (∃ (console : Console) (q : Request) (t : Transcript),
      console.terminal = true ∧ console.files.plain "tests/x" = some ⟨"3/2", false⟩ ∧
      q.origin = .file "tests/x" ∧ q.Fits console ["tests/x", "4"] ∧
      (respond console ["-d", "-c", "2", "tests/x", "4"]).exit = 0 ∧
      (respond console ["-d", "-c", "2", "tests/x", "4"]).output = t.lines.toList ∧
      t.lines.toList = ["4:\t3/2", "6:\t[3/2]"]) ∧
    (∃ (q : Request) (t : Transcript),
      q.origin = .standardInput ∧ q.Fits { input := "3/2" } ["4"] ∧
      (respond { input := "3/2" } ["4"]).exit = 0 ∧
      (respond { input := "3/2" } ["4"]).output = t.lines.toList ∧
      t.lines.toList = ["4", "6", "9"]) ∧
    (respond { input := "3/2", brokenInput := true } ["4"]).exit = 1 ∧
    (respond { input := "3/2", brokenInput := true } ["4"]).output = [] := by
  have hran {console : Console} {arguments positional : List String} {o : Options}
      {origin : Origin} (hp : ({} : Options).parse arguments = (o, .ok positional))
      (hs : Selects (!console.terminal) positional origin "4") (hr : Provides console origin "3/2")
      (hhelp : positional.head? ≠ some "help") :
      ∃ (q : Request) (t : Transcript), q.origin = origin ∧ q.Fits console positional ∧
        (respond console arguments).exit = 0 ∧
        (respond console arguments).output = t.lines.toList := by
    obtain ⟨-, hexit, hrun, -⟩ := respond_outcome console arguments
    have hzero := hexit.2 ⟨o, positional, hp, .inr ⟨_, fits_three_halves hs hr⟩⟩
    obtain ⟨-, q, -, -, -, t, hq, -, -, -, houtput⟩ := hrun o positional hp hhelp hzero
    exact ⟨q, t, (hs.unique hq.selected).1, hq, hzero, houtput⟩
  have hplain : ¬ NamesCompressed "tests/x" := by
    rw [← isCompressedName_iff]
    decide +kernel
  refine ⟨?_, ?_, ?_⟩
  · obtain ⟨q, t, horigin, hq, hexit, houtput⟩ := @hran
      { terminal := true, files := { plain := fun _ => some ⟨"3/2", false⟩ } }
      ["-d", "-c", "2", "tests/x", "4"] ["tests/x", "4"] ⟨some 2, true, .info⟩ (.file "tests/x")
      (by decide +kernel) (.file (by decide) "4") (.plain hplain rfl) (by decide)
    exact ⟨_, q, t, rfl, rfl, horigin, hq, hexit, houtput, houtput ▸ by decide +kernel⟩
  · obtain ⟨q, t, horigin, hq, hexit, houtput⟩ := @hran { input := "3/2" } ["4"] ["4"] {}
      .standardInput (by decide +kernel) (.pipe rfl "4") (.input rfl) (by decide)
    exact ⟨q, t, horigin, hq, hexit, houtput, houtput ▸ by decide +kernel⟩
  · have hexit : (respond { input := "3/2", brokenInput := true } ["4"]).exit = 1 := by
      decide +kernel
    exact ⟨hexit, ((respond_outcome _ _).2.2.2 hexit).1⟩

end Fractran.CommandLine
