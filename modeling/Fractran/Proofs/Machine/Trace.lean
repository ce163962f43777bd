/-
  Traces against plain runs.

  A trace is a run that prints more: it ends in the same way, and each of its lines shows the
  number that the run prints there and all fractions, with brackets around the one that made the
  number (`shows_line`, `madeBy_maker`). What a line shows behind its first tab is the program
  again once the brackets are left out and the tabs are commas (`shownSource_line`).
-/
import Fractran.Proofs.Machine.Alike
import Fractran.Proofs.Machine.Bound
import Fractran.Proofs.Source.Print

namespace Fractran

/-! ## Lines -/

namespace Program

/-- The line is the numeral, a colon and the fractions of the program in order, each behind a
    tab. The fraction at the mark is in brackets, and no other. -/
def Shows (p : Program) (numeral : String) (mark : Option Nat) (line : String) : Prop :=
  ∃ entries : List String, entries.length = p.size ∧
    (∀ i f, p.fractions[i]? = some f →
      entries[i]? = some (if mark = some i then "[" ++ f.toString ++ "]" else f.toString)) ∧
    line = numeral ++ ":" ++ String.join (entries.map ("\t" ++ ·))

theorem shows_entries (p : Program) (numeral : String) (mark : Option Nat) :
    p.Shows numeral mark (numeral ++ ":" ++ p.entries mark) := by
  refine ⟨p.fractions.zipIdx.map fun q => entry q.1 (mark == some q.2), by simp [size], ?_, ?_⟩
  · intro i f hf
    rw [List.getElem?_map, List.getElem?_zipIdx, hf]
    simp [entry]
  · rw [entries, List.map_map]
    rfl

end Program

theorem Machine.shows_line (m : Machine) (r : Run) (v : Integer) :
    m.program.Shows v.toString r.last (m.line .trace r v) :=
  m.program.shows_entries v.toString r.last

/-! ## Which fraction made a number -/

namespace Fraction

theorem Valid.toRat {f : Fraction} (h : f.Valid) :
    f.toRat = (f.rule.num : ℚ) / (f.rule.den : ℚ) := by
  rw [Fraction.toRat, ← h.num, ← h.den, Int.cast_natCast, Int.cast_natCast]

/-- A rule makes the product of a number with the fraction. -/
theorem mul_toRat_of_applies {f : Fraction} (h : f.Valid) {x : Nat} (hx : f.rule.Applies x) :
    (x : ℚ) * f.toRat = f.rule.apply x := by
  have hd : (f.rule.den : ℚ) ≠ 0 := Nat.cast_ne_zero.2 (Nat.pos_iff_ne_zero.1 h.positive.2)
  obtain ⟨y, hy⟩ := hx
  rw [Rule.apply_eq_of_mul_eq h.positive.2 hy, h.toRat, ← mul_div_assoc, div_eq_iff hd]
  exact_mod_cast hy.trans (Nat.mul_comm _ _)

/-- A rule applies where the product is an integer. -/
theorem applies_of_mul_toRat {f : Fraction} (h : f.Valid) {x : Nat} {z : ℤ}
    (hz : (x : ℚ) * f.toRat = z) : f.rule.Applies x := by
  have hd : (f.rule.den : ℚ) ≠ 0 := Nat.cast_ne_zero.2 (Nat.pos_iff_ne_zero.1 h.positive.2)
  rw [h.toRat, ← mul_div_assoc, div_eq_iff hd] at hz
  have hint : ((x * f.rule.num : ℕ) : ℤ) = z * f.rule.den := by exact_mod_cast hz
  rw [Rule.Applies, ← Int.natCast_dvd_natCast, hint]
  exact Int.dvd_mul_left z f.rule.den

end Fraction

namespace Program

/-- How the number at a position of a run came about: the first was given, any other is the
    product of the one before with the first fraction of the program that makes it an integer. -/
inductive MadeBy (p : Program) (xs : List Nat) : Nat → Option Nat → Prop where
  | seed : MadeBy p xs 0 none
  | applied {k x y i : Nat} {f : Fraction} (hx : xs[k]? = some x) (hy : xs[k + 1]? = some y)
      (hf : p.fractions[i]? = some f) (hproduct : (x : ℚ) * f.toRat = y)
      (hleast : ∀ j g, j < i → p.fractions[j]? = some g → ∀ z : ℤ, (x : ℚ) * g.toRat ≠ z) :
      MadeBy p xs (k + 1) (some i)

/-- Along a trajectory the rule that made a number is the fraction that made it. -/
theorem madeBy_maker {p : Program} (hp : p.Valid) {n : Nat} {xs : List Nat}
    (h : ∀ k x, xs[k]? = some x → p.rules.orbit n k = some x) {k : Nat} (hk : k < xs.length) :
    MadeBy p xs k (p.rules.maker n k) := by
  cases k with
  | zero => exact .seed
  | succ k =>
    have hx : xs[k]? = some xs[k] := List.getElem?_eq_getElem (by omega)
    have hy : xs[k + 1]? = some xs[k + 1] := List.getElem?_eq_getElem hk
    have horbit := h (k + 1) _ hy
    rw [Rules.orbit, h k _ hx, Option.bind_some] at horbit
    obtain ⟨i, r, hi, hr, hnext⟩ := Rules.next?_eq_some_iff.1 horbit
    obtain ⟨r', hr', happlies, hleast⟩ := Rules.firing?_eq_some_iff.1 hi
    obtain rfl : r = r' := Option.some.inj (hr.symm.trans hr')
    rw [rules, List.getElem?_map] at hr
    obtain ⟨f, hf, rfl⟩ := Option.map_eq_some_iff.1 hr
    have hvalid : f.Valid := hp f (List.mem_of_getElem? hf)
    rw [Rules.maker, h k _ hx, Option.bind_some, hi]
    refine .applied hx hy hf ?_ ?_
    · rw [hnext]
      exact Fraction.mul_toRat_of_applies hvalid happlies
    · intro j g hj hg z hz
      apply hleast j g.rule hj (by rw [rules, List.getElem?_map, hg]; rfl)
      exact Fraction.applies_of_mul_toRat (hp g (List.mem_of_getElem? hg)) hz

end Program

/-! ## The program that a line shows -/

namespace Source

/-- A text without brackets, and with commas for its tabs. -/
def unmarked (text : List Char) : List Char :=
  (text.filter fun c => c ≠ '[' && c ≠ ']').map fun c => if c = '\t' then ',' else c

/-- What a line shows behind its first tab, without brackets and with commas for the tabs. -/
def shownSource (line : String) : String :=
  .ofList (unmarked ((line.toList.dropWhile (· ≠ '\t')).drop 1))

theorem unmarked_append (xs ys : List Char) :
    unmarked (xs ++ ys) = unmarked xs ++ unmarked ys := by
  simp [unmarked]

theorem mem_text_fraction {f : Fraction} {c : Char} (h : c ∈ f.text) :
    c = '-' ∨ c = '/' ∨ c.isDigit = true := by
  rcases List.mem_append.1 h with h | h
  · exact (Integer.isDigit_of_mem_text h).imp_right .inr
  · rcases List.mem_cons.1 h with rfl | h
    · exact .inr (.inl rfl)
    · exact (Integer.isDigit_of_mem_text h).imp_right .inr

/-- A fraction holds neither brackets nor tabs. -/
theorem unmarked_text (f : Fraction) : unmarked f.text = f.text := by
  have hplain : ∀ c ∈ f.text, c ≠ '[' ∧ c ≠ ']' ∧ c ≠ '\t' := by
    intro c hc
    rcases mem_text_fraction hc with rfl | rfl | hdigit
    · decide
    · decide
    · refine ⟨?_, ?_, ?_⟩ <;> rintro rfl <;> cases hdigit
  have hfilter : (f.text.filter fun c => c ≠ '[' && c ≠ ']') = f.text := by
    rw [List.filter_eq_self]
    intro c hc
    simp [(hplain c hc).1, (hplain c hc).2.1]
  rw [unmarked, hfilter]
  calc f.text.map _ = f.text.map id := List.map_congr_left fun c hc => if_neg (hplain c hc).2.2
    _ = f.text := List.map_id _

theorem unmarked_entry (f : Fraction) (applied : Bool) :
    unmarked ("\t" ++ Program.entry f applied).toList = ',' :: f.text := by
  have htext : f.toString.toList = f.text := String.toList_ofList
  have htab : unmarked "\t".toList = [','] := by decide
  have hopen : unmarked "[".toList = [] := by decide
  have hclose : unmarked "]".toList = [] := by decide
  cases applied with
  | false =>
    rw [Program.entry, if_neg Bool.false_ne_true, String.toList_append, unmarked_append, htab,
      htext, unmarked_text]
    rfl
  | true =>
    rw [Program.entry, if_pos rfl, String.toList_append, String.toList_append, String.toList_append,
      unmarked_append, unmarked_append, unmarked_append, htab, hopen, hclose, htext, unmarked_text,
      List.append_nil]
    rfl

theorem unmarked_entries (p : Program) (mark : Option Nat) :
    unmarked (p.entries mark).toList = p.fractions.flatMap fun f => ',' :: f.text := by
  have hflat (texts : List String) :
      unmarked (String.join texts).toList = texts.flatMap fun s => unmarked s.toList := by
    rw [String.toList_join, unmarked, List.filter_flatMap, List.map_flatMap]
    rfl
  rw [Program.entries, hflat, List.flatMap_map]
  simp only [unmarked_entry]
  rw [← List.flatMap_map Prod.fst (fun f : Fraction => ',' :: f.text), List.zipIdx_map_fst]

theorem flatMap_comma_text {fs : List Fraction} (h : fs ≠ []) :
    (fs.flatMap fun f => ',' :: f.text) = ',' :: List.intercalate [','] (fs.map Fraction.text) := by
  induction fs with
  | nil => exact absurd rfl h
  | cons f fs ih =>
    by_cases hnil : fs = []
    · simp [hnil]
    · rw [List.flatMap_cons, ih hnil, List.map_cons,
        List.intercalate_cons_of_ne_nil (by simpa using hnil)]
      simp

/-- There is no tab up to the colon of a line. -/
theorem tab_not_mem_numeral (v : Integer) : '\t' ∉ v.toString.toList ++ ":".toList := by
  intro hmem
  rcases List.mem_append.1 hmem with hmem | hmem
  · rw [Integer.toString, String.toList_ofList] at hmem
    obtain h | h := Integer.isDigit_of_mem_text hmem <;> cases h
  · exact absurd hmem (by decide)

/-- Every line of a trace shows the program's own source. -/
theorem shownSource_line (m : Machine) (h : m.program.fractions ≠ []) (r : Run) (v : Integer) :
    shownSource (m.line .trace r v) = m.program.toString := by
  have hnumeral : ∀ c ∈ v.toString.toList ++ ":".toList, (c ≠ '\t' : Bool) = true := by
    intro c hc
    rw [decide_eq_true_iff]
    rintro rfl
    exact tab_not_mem_numeral v hc
  obtain ⟨rest, hrest⟩ : ∃ rest, (m.program.entries r.last).toList = '\t' :: rest := by
    obtain ⟨f, fs, hfs⟩ := List.exists_cons_of_ne_nil h
    rw [Program.entries, hfs, String.toList_join, List.zipIdx_cons, List.map_cons,
      List.flatMap_cons, String.toList_append]
    exact ⟨_, rfl⟩
  have hunmarked : unmarked rest = m.program.text := by
    have hall := unmarked_entries m.program r.last
    rw [flatMap_comma_text h, hrest] at hall
    exact (List.cons.inj hall).2
  rw [shownSource, Machine.line, String.toList_append, String.toList_append,
    List.dropWhile_append_of_pos hnumeral, hrest, List.dropWhile_cons_of_neg (by decide),
    List.drop_one, List.tail_cons, hunmarked]
  rfl

end Source

/-! ## Runs in both modes -/

namespace Session

/-- A run and a trace from one seed end in the same way and leave the same session. -/
theorem call_run_modes (s : Session) {seed : Integer} (hpos : 0 < seed.toInt) :
    ∃ status lines traced after notes notes',
      s.call (.run .values seed) = ⟨.ok (.finished status lines), after, notes⟩ ∧
      s.call (.run .trace seed) = ⟨.ok (.finished status traced), after, notes'⟩ := by
  obtain ⟨status, t, t', ht, ht', hrun, -⟩ :=
    (Machine.Alike.refl s.machine).runFrom .values .trace hpos
  refine ⟨status, t.lines.toList, t'.lines.toList, { s with run := some t.run }, t.notes.toList,
    t'.notes.toList, ?_, ?_⟩
  · simp only [call, ht]
  · simp only [call, ht', hrun]

/-- A run and a trace of a program from one seed end with the same status and leave the same
    session. For each number that the run prints the trace prints a line that shows it and the
    fractions of the program; nothing is in brackets on the first line, and on any other exactly
    the first fraction that made an integer of the number before, which is the number of the
    line. From every line the program can be read again, if it is not empty. -/
theorem trace_shows_run {p : Program} (hp : p.Reduced) {b : Int} {level : Level} {s : Session}
    (hs : Machine.make p b level = .ok s.machine) {seed : Integer} (hc : seed.Canonical)
    (hpos : 0 < seed.toInt) :
    ∃ (status : Status) (xs : List Nat) (traced : List String) (after : Session)
      (notes notes' : List String),
      s.call (.run .values seed) = ⟨.ok (.finished status (xs.map Nat.repr)), after, notes⟩ ∧
      s.call (.run .trace seed) = ⟨.ok (.finished status traced), after, notes'⟩ ∧
      traced.length = xs.length ∧
      (∀ k x line, xs[k]? = some x → traced[k]? = some line →
        ∃ mark, p.Shows (Nat.repr x) mark line ∧ p.MadeBy xs k mark) ∧
      (p.fractions ≠ [] → ∀ line ∈ traced,
        (({} : Source.Parser).parse ⟨Source.shownSource line, false⟩).1 = .ok p) := by
  obtain ⟨hprogram, -, -, hvalid⟩ := Machine.make_spec hp hs
  obtain ⟨status, ps, after, notes, hrun, hobeys, hat, -⟩ := call_run_spec hp hs hc hpos .values
  obtain ⟨status', ps', after', notes', htrace, hobeys', hat', -⟩ :=
    call_run_spec hp hs hc hpos .trace
  obtain ⟨status₁, lines, traced, after₁, notes₁, notes₁', hrun₁, htrace₁⟩ := call_run_modes s hpos
  cases hrun.symm.trans hrun₁
  cases htrace.symm.trans htrace₁
  have horbit (k : Nat) (x : Nat) (hx : (ps.map fun q => q.value.toInt.toNat)[k]? = some x) :
      p.rules.orbit seed.toInt.toNat k = some x := by
    rw [List.getElem?_map] at hx
    obtain ⟨q, hq, rfl⟩ := Option.map_eq_some_iff.1 hx
    obtain ⟨y, hy, -, hv⟩ := (hat k q hq).value
    rw [hy, hv, Int.toNat_natCast]
  have hlength : ps'.length = ps.length := by
    rw [← List.length_map (s.machine.productionLine .trace), hobeys'.lines, ← hobeys.lines,
      List.length_map]
  refine ⟨status, ps.map fun q => q.value.toInt.toNat, _, after, notes, notes', ?_, htrace, ?_, ?_,
    ?_⟩
  · rw [hrun, Machine.map_productionLine_values hat, Machine.values_eq_map hat]
  · rw [List.length_map, List.length_map, hlength]
  · intro k x line hx hline
    rw [List.getElem?_map] at hline
    obtain ⟨q, hq, rfl⟩ := Option.map_eq_some_iff.1 hline
    obtain ⟨y, hy, hcanonical, hv⟩ := (hat' k q hq).value
    obtain rfl : x = y := Option.some.inj ((horbit k x hx).symm.trans hy)
    refine ⟨p.rules.maker seed.toInt.toNat k, ?_, ?_⟩
    · rw [← Integer.toString_eq_repr hcanonical hv, ← (hat' k q hq).last, ← hprogram]
      exact s.machine.shows_line q.run q.value
    · exact Program.madeBy_maker (hprogram ▸ hvalid) horbit (List.getElem?_eq_some_iff.1 hx).1
  · intro hne line hline
    obtain ⟨q, -, rfl⟩ := List.mem_map.1 hline
    have hprintable : Source.Printable p := by
      refine ⟨hne, fun f hf => ?_⟩
      rw [Fraction.sign, Integer.sign_toInt, Int.sign_nonneg_iff]
      exact Int.le_of_lt ((hprogram ▸ hvalid) f hf).2
    rw [Source.Parser.parse_eq, Machine.productionLine,
      Source.shownSource_line s.machine (hprogram ▸ hne), hprogram, Source.Stream.parse_eq_ok_iff,
      Program.toString, String.toList_ofList]
    exact Source.parse_text hp hprintable

/-- Of two equal fractions the first is in brackets. -/
theorem trace_shows_run_equal_fractions :
    ∃ (p : Program) (s : Session) (xs : List Nat) (mark : Option Nat),
      p.fractions = [⟨.ofInt64 3, .ofInt64 2⟩, ⟨.ofInt64 3, .ofInt64 2⟩] ∧
      Machine.make p 5 .info = .ok s.machine ∧
      (s.call (.run .values (.ofInt64 2))).answer =
        .ok (.finished .halted (xs.map Nat.repr)) ∧ xs.map Nat.repr = ["2", "3"] ∧
      (s.call (.run .trace (.ofInt64 2))).answer =
        .ok (.finished .halted ["2:\t3/2\t3/2", "3:\t[3/2]\t3/2"]) ∧
      p.Shows "3" mark "3:\t[3/2]\t3/2" ∧ p.MadeBy xs 1 mark ∧
      (({} : Source.Parser).parse ⟨Source.shownSource "3:\t[3/2]\t3/2", false⟩).1 = .ok p := by
  have hreduced : Program.Reduced ⟨[⟨.ofInt64 3, .ofInt64 2⟩, ⟨.ofInt64 3, .ofInt64 2⟩]⟩ := by
    have hthree := List.forall_mem_singleton.1 reduced_three_halves
    exact List.forall_mem_cons.2 ⟨hthree, List.forall_mem_singleton.2 hthree⟩
  let m : Machine := ⟨⟨[⟨.ofInt64 3, .ofInt64 2⟩, ⟨.ofInt64 3, .ofInt64 2⟩]⟩, 5, false⟩
  have hmake : Machine.make ⟨[⟨.ofInt64 3, .ofInt64 2⟩, ⟨.ofInt64 3, .ofInt64 2⟩]⟩ 5 .info =
      .ok (ofMachine m).machine := by
    refine Machine.make_eq_ok_iff.2 ⟨by decide, ?_, rfl⟩
    simp only [List.forall_mem_cons]
    decide
  obtain ⟨status, xs, traced, after, notes, notes', hrun, htrace, -, hshows, hsource⟩ :=
    trace_shows_run hreduced hmake (Integer.canonical_ofInt64 2) (by decide)
  have hlines : ((ofMachine m).call (.run .values (.ofInt64 2))).answer =
      .ok (.finished .halted ["2", "3"]) := by decide +kernel
  have htraced : ((ofMachine m).call (.run .trace (.ofInt64 2))).answer =
      .ok (.finished .halted ["2:\t3/2\t3/2", "3:\t[3/2]\t3/2"]) := by decide +kernel
  obtain ⟨rfl, hxs⟩ : status = .halted ∧ xs.map Nat.repr = ["2", "3"] := by
    simpa using (congrArg Reply.answer hrun).symm.trans hlines
  obtain rfl : traced = ["2:\t3/2\t3/2", "3:\t[3/2]\t3/2"] := by
    simpa using (congrArg Reply.answer htrace).symm.trans htraced
  obtain ⟨x, hx, hthree⟩ : ∃ x, xs[1]? = some x ∧ Nat.repr x = "3" := by
    rw [← Option.map_eq_some_iff, ← List.getElem?_map, hxs]
    rfl
  obtain ⟨mark, hmark, hmade⟩ := hshows 1 x _ hx rfl
  rw [hthree] at hmark
  exact ⟨_, _, xs, mark, rfl, hmake, congrArg Reply.answer hrun, hxs, htraced, hmark, hmade,
    hsource (by simp) _ (by simp)⟩

end Session

end Fractran
