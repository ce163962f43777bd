/-
  Where faults of sources are found.

  A text is viable if it is the beginning of an accepted one. These are exactly the texts that the
  reader takes to their end (`viable_iff`): wherever it is in a fraction, the fraction can be
  completed (`Reads.completed`). So a fault is found at the first character that cannot be
  continued (`stuckAt_of_refuses`); only a denominator of zeros is found behind its last digit,
  and it is reported where it starts (`zeroDenominatorAt_of_close`). A stream that breaks off is
  unreadable exactly if its text is viable, and otherwise it has the fault that every longer text
  has (`parse_broken_eq`).
-/
import Fractran.Proofs.Source.Parser

namespace Fractran.Source

/-! ## Beginnings of sources -/

/-- A fresh parser makes a program of the text. -/
def Accepted (text : List Char) : Prop :=
  ∃ program, (({} : Parser).parse ⟨.ofList text, false⟩).1 = .ok program

/-- The text is the beginning of an accepted one. -/
def Viable (text : List Char) : Prop := ∃ rest, Accepted (text ++ rest)

theorem accepted_iff (text : List Char) : Accepted text ↔ ∃ program, parse text = .ok program := by
  simp only [Accepted, Parser.parse_eq, Stream.parse_eq_ok_iff, String.toList_ofList]

theorem Viable.of_append {text rest : List Char} (h : Viable (text ++ rest)) : Viable text := by
  obtain ⟨more, hmore⟩ := h
  exact ⟨rest ++ more, by rwa [← List.append_assoc]⟩

theorem takeAll_append_error {text : List Char} {fault : Fault}
    (h : Reader.takeAll text = .error fault) (rest : List Char) :
    Reader.takeAll (text ++ rest) = .error fault := by
  rw [Reader.takeAll] at h ⊢
  rw [List.foldlM_append, h]
  rfl

/-- Wherever the reader is in a fraction, the fraction can be completed. -/
theorem Reads.completed {text : List Char} {ws : List Written} {r : Reader} (h : Reads text ws r) :
    ∃ (rest : List Char) (w : Written), w.WellFormed ∧ w.denValue ≠ 0 ∧
      r.phase.text ++ rest = w.text := by
  have hopen := h.opened
  have hone : IsNumeral ['1'] := isNumeral_singleton rfl
  cases hphase : r.phase with
  | fraction => exact ⟨['1', '/', '1'], ⟨['1'], ['1']⟩, ⟨hone, hone⟩, by decide, rfl⟩
  | numerator n =>
    rw [hphase] at hopen
    exact ⟨['/', '1'], ⟨n.reverse, ['1']⟩, ⟨isNumeral_reverse.2 hopen, hone⟩, Nat.one_ne_zero, rfl⟩
  | slash n =>
    rw [hphase] at hopen
    refine ⟨['1'], ⟨n.reverse, ['1']⟩, ⟨isNumeral_reverse.2 hopen, hone⟩, Nat.one_ne_zero, ?_⟩
    simp [Phase.text, Written.text]
  | denominator n start d =>
    -- one more digit that is not zero
    rw [hphase] at hopen
    have hnumeral : IsNumeral (d.reverse ++ ['1']) := by
      rw [← List.reverse_cons]
      exact isNumeral_reverse.2 (hopen.2.1.cons rfl)
    refine ⟨['1'], ⟨n.reverse, d.reverse ++ ['1']⟩, ⟨isNumeral_reverse.2 hopen.1, hnumeral⟩, ?_, ?_⟩
    · rw [Written.denValue, Nat.ofDigitChars_append]
      exact Nat.succ_ne_zero _
    · simp [Phase.text, Written.text]

theorem viable_of_takeAll {text : List Char} {r : Reader} (h : Reader.takeAll text = .ok r) :
    Viable text := by
  obtain ⟨ws, hreads⟩ := reads_takeAll h
  obtain ⟨rest, w, hw, hd, htext⟩ := hreads.completed
  have hspells := spells_flatMap hreads.wellFormed hw
  rw [← htext, ← List.append_assoc, ← hreads.taken] at hspells
  refine ⟨rest, (accepted_iff _).2 ⟨⟨(ws ++ [w]).map Written.fraction⟩, ?_⟩⟩
  refine (parse_eq_ok_iff _ _).2 ⟨ws ++ [w], hspells, ?_, rfl⟩
  rw [List.forall_mem_append, List.forall_mem_singleton]
  exact ⟨hreads.nonzero, hd⟩

/-- The viable texts are those that the reader takes to their end. -/
theorem viable_iff (text : List Char) : Viable text ↔ ∃ r, Reader.takeAll text = .ok r := by
  constructor
  · rintro ⟨rest, hrest⟩
    obtain ⟨program, hparse⟩ := (accepted_iff _).1 hrest
    obtain ⟨r, hr, -⟩ := bind_eq_ok_iff.1 hparse
    cases htake : Reader.takeAll text with
    | ok r => exact ⟨r, rfl⟩
    | error fault =>
      rw [takeAll_append_error htake] at hr
      cases hr
  · rintro ⟨r, hr⟩
    exact viable_of_takeAll hr

/-! ## Where the reader refuses to go on -/

/-- The causes for which the reader refuses what comes next. -/
theorem Reader.refuses_cases {r : Reader} {fault : Fault} {next : Option Char}
    (h : r.Refuses fault next) :
    (fault = .empty ∧ next = none ∧ r.phase = .fraction ∧ r.fractions = []) ∨
    (∃ expected, fault = .unexpected r.position next expected) ∨
    ∃ n start d, r.phase = .denominator n start d ∧ symbolOf next ≠ .digit ∧
      close n start d = .error fault := by
  cases next with
  | none =>
    have hfinish : r.finish = .error fault := h
    unfold finish at hfinish
    split at hfinish
    next hphase =>
      split_ifs at hfinish with hfs
      · cases hfinish
        exact .inl ⟨rfl, rfl, hphase, List.isEmpty_iff.1 hfs⟩
      · exact .inr (.inl ⟨_, (Except.error.inj hfinish).symm⟩)
    next => exact .inr (.inl ⟨_, (Except.error.inj hfinish).symm⟩)
    next => exact .inr (.inl ⟨_, (Except.error.inj hfinish).symm⟩)
    next n start d hphase =>
      rcases bind_eq_error_iff.1 hfinish with hclose | ⟨f, -, hok⟩
      · exact .inr (.inr ⟨n, start, d, hphase, by simp [symbolOf], hclose⟩)
      · cases hok
  | some c =>
    have htake : r.take c = .error fault := h
    unfold take at htake
    split at htake
    next => cases htake
    next => exact .inr (.inl ⟨_, (Except.error.inj htake).symm⟩)
    next => cases htake
    next => cases htake
    next => exact .inr (.inl ⟨_, (Except.error.inj htake).symm⟩)
    next => cases htake
    next => exact .inr (.inl ⟨_, (Except.error.inj htake).symm⟩)
    next => cases htake
    next n start d hphase hc =>
      rcases bind_eq_error_iff.1 htake with hclose | ⟨f, -, hok⟩
      · exact .inr (.inr ⟨n, start, d, hphase, by simp [symbolOf, hc], hclose⟩)
      · cases hok
    next n start d hphase hdigit _ =>
      rcases bind_eq_error_iff.1 htake with hclose | ⟨f, -, hrefused⟩
      · exact .inr (.inr ⟨n, start, d, hphase, hdigit, hclose⟩)
      · exact .inr (.inl ⟨_, (Except.error.inj hrefused).symm⟩)

/-- A text that the reader does not take to its end has a first character that is refused. -/
theorem foldlM_eq_error {text : List Char} {r : Reader} {fault : Fault}
    (h : text.foldlM Reader.take r = .error fault) :
    ∃ before rest s, text = before ++ rest ∧ before.foldlM Reader.take r = .ok s ∧
      s.Refuses fault rest.head? := by
  induction text generalizing r with
  | nil => cases h
  | cons c text ih =>
    cases htake : r.take c with
    | error e =>
      rw [List.foldlM_cons, htake] at h
      cases h
      exact ⟨[], c :: text, r, rfl, rfl, htake⟩
    | ok s =>
      rw [foldlM_cons_ok htake] at h
      obtain ⟨before, rest, t, rfl, hbefore, hrest⟩ := ih h
      exact ⟨c :: before, rest, t, rfl, by rw [foldlM_cons_ok htake, hbefore], hrest⟩

/-- A malformed stream is taken up to where the reader refuses to go on. -/
theorem Stream.refused_of_parse {s : Stream} {fault : Fault}
    (h : s.parse = .error (.malformedSource fault)) :
    ∃ before rest r, s.text.toList = before ++ rest ∧ Reader.takeAll before = .ok r ∧
      r.Refuses fault rest.head? := by
  unfold Stream.parse at h
  split at h
  next e htake =>
    cases h
    exact foldlM_eq_error htake
  next r htake =>
    split_ifs at h
    · cases h
    · split at h
      next e hfinish =>
        cases h
        exact ⟨s.text.toList, [], r, (List.append_nil _).symm, htake, hfinish⟩
      next => cases h

/-! ## Faults and what they name -/

/-- The text can be continued in front of the position and not behind it: the character there
    ends every hope of a source, or the text ends there and is none. -/
structure StuckAt (text : List Char) (position : Nat) : Prop where
  inside : position ≤ text.length
  viable : Viable (text.take position)
  stuck : position < text.length ∧ ¬ Viable (text.take (position + 1)) ∨
    position = text.length ∧ ¬ Accepted text

/-- A denominator of nothing but zeros starts at the position, behind a slash up to which the
    text can be continued. -/
structure ZeroDenominatorAt (text : List Char) (position : Nat) : Prop where
  slash : 0 < position ∧ text[position - 1]? = some '/'
  nonempty : (text.drop position).takeWhile Char.isDigit ≠ []
  zeros : ∀ c ∈ (text.drop position).takeWhile Char.isDigit, c = '0'
  viable : Viable (text.take position)

/-- How a message names what stands at a position. -/
inductive Names : Option Char → String → Prop where
  | finish : Names none "end of input"
  | digit {c : Char} (h : c.isDigit = true) : Names (some c) "digit"
  | slash : Names (some '/') "slash"
  | comma : Names (some ',') "comma"
  | other {c : Char} (hdigit : c.isDigit = false) (hslash : c ≠ '/') (hcomma : c ≠ ',') :
      Names (some c) ("character '" ++ c.toString ++ "'")

theorem names_describe (next : Option Char) : Names next (Symbol.describe next) := by
  cases next with
  | none => exact .finish
  | some c =>
    cases hc : Symbol.ofChar c with
    | comma =>
      obtain rfl := (ofChar_eq_comma_iff c).1 hc
      exact .comma
    | digit =>
      rw [Symbol.describe, hc]
      exact .digit ((ofChar_eq_digit_iff c).1 hc)
    | slash =>
      obtain rfl := (ofChar_eq_slash_iff c).1 hc
      exact .slash
    | finish => exact absurd hc (ofChar_ne_finish c)
    | invalid =>
      rw [Symbol.describe, hc]
      refine .other (Bool.eq_false_iff.2 ?_) ?_ ?_
      · rw [ne_eq, ← ofChar_eq_digit_iff, hc]
        simp
      · rw [ne_eq, ← ofChar_eq_slash_iff, hc]
        simp
      · rw [ne_eq, ← ofChar_eq_comma_iff, hc]
        simp

theorem stuckAt_of_refuses {before rest : List Char} {r : Reader} {fault : Fault}
    (hbefore : Reader.takeAll before = .ok r) (h : r.Refuses fault rest.head?) :
    StuckAt (before ++ rest) before.length where
  inside := by simp
  viable := by
    rw [List.take_left]
    exact viable_of_takeAll hbefore
  stuck := by
    cases rest with
    | nil =>
      right
      rw [List.append_nil, accepted_iff]
      refine ⟨rfl, ?_⟩
      rintro ⟨program, hparse⟩
      have hrefused : parse before = .error fault := by
        rw [parse, hbefore]
        exact h
      rw [hrefused] at hparse
      cases hparse
    | cons c rest =>
      left
      refine ⟨by simp, ?_⟩
      have hrefused : Reader.takeAll (before ++ [c]) = .error fault := by
        have htake : r.take c = .error fault := h
        rw [Reader.takeAll, foldlM_append_ok hbefore, List.foldlM_cons, htake]
        rfl
      have htext : (before ++ c :: rest).take (before.length + 1) = before ++ [c] := by
        rw [← List.singleton_append, ← List.append_assoc]
        exact List.take_left' (by simp)
      rw [htext, viable_iff, hrefused]
      rintro ⟨s, hs⟩
      cases hs

/-! ## Zero denominators -/

theorem eq_zero_of_ofDigitChars {ds : List Char} (hd : ∀ c ∈ ds, c.isDigit = true)
    (h : Nat.ofDigitChars 10 ds 0 = 0) : ∀ c ∈ ds, c = '0' := by
  induction ds with
  | nil => simp
  | cons c ds ih =>
    rw [List.forall_mem_cons] at hd
    have hz : '0'.toNat = 48 := rfl
    have hc := Magnitude.isDigit_iff.1 hd.1
    rw [Nat.ofDigitChars_cons, Nat.ofDigitChars_eq_ofDigitChars_zero, Nat.add_eq_zero_iff,
      Nat.mul_eq_zero] at h
    have hpow : 10 ^ ds.length ≠ 0 := Nat.ne_of_gt (Nat.pow_pos (by decide))
    have hzero : c.toNat = '0'.toNat := by
      have := h.1.resolve_left hpow
      omega
    exact List.forall_mem_cons.2 ⟨Char.toNat_inj.1 hzero, ih hd.2 h.2⟩

/-- A denominator that is refused is written with nothing but zeros, up to where the reader is. -/
theorem zeroDenominatorAt_of_close {before rest : List Char} {r : Reader} {fault : Fault}
    (hbefore : Reader.takeAll before = .ok r) {n d : List Char} {start : Nat}
    (hphase : r.phase = .denominator n start d) (hrest : symbolOf rest.head? ≠ .digit)
    (hclose : Reader.close n start d = .error fault) :
    fault = .zeroDenominator start ∧ ZeroDenominatorAt (before ++ rest) start := by
  obtain ⟨ws, hreads⟩ := reads_takeAll hbefore
  have hopen := hreads.opened
  have htaken := hreads.taken
  rw [hphase] at hopen htaken
  obtain ⟨hn, hd, hstart⟩ := hopen
  have hw : (⟨n.reverse, d.reverse⟩ : Written).WellFormed :=
    ⟨isNumeral_reverse.2 hn, isNumeral_reverse.2 hd⟩
  have hzero := Written.close_eq hw start
  simp only [List.reverse_reverse, hclose] at hzero
  split_ifs at hzero with hden
  refine ⟨Except.error.inj hzero, ?_⟩
  -- the text is cut behind the slash, where the denominator starts
  obtain ⟨upTo, hbefore'⟩ : ∃ upTo, before = upTo ++ ['/'] ++ d.reverse :=
    ⟨ws.flatMap (·.text ++ [',']) ++ n.reverse, by simp [htaken, Phase.text]⟩
  have hlength : (upTo ++ ['/']).length = start := by
    have hposition := hreads.position
    rw [hbefore', List.length_append, List.length_reverse] at hposition
    omega
  have hdrop : (before ++ rest).drop start = d.reverse ++ rest := by
    rw [hbefore', List.append_assoc]
    exact List.drop_left' hlength
  have htake : (before ++ rest).take start = upTo ++ ['/'] := by
    rw [hbefore', List.append_assoc]
    exact List.take_left' hlength
  have hrun : ((before ++ rest).drop start).takeWhile Char.isDigit = d.reverse := by
    have hstop : rest.takeWhile Char.isDigit = [] := by
      cases rest with
      | nil => rfl
      | cons c rest =>
        exact List.takeWhile_cons_of_neg fun hc => hrest ((ofChar_eq_digit_iff c).2 hc)
    rw [hdrop, List.takeWhile_append_of_pos hw.2.2, hstop, List.append_nil]
  refine ⟨?_, ?_, ?_, ?_⟩
  · subst hlength hbefore'
    simp
  · rw [hrun]
    exact hw.2.1
  · rw [hrun]
    exact eq_zero_of_ofDigitChars hw.2.2 hden
  · have hviable := viable_of_takeAll hbefore
    rw [hbefore'] at hviable
    rw [htake]
    exact hviable.of_append

/-- A malformed stream names its fault. An empty program or an unexpected symbol is reported at the
    first character that cannot be continued, or at the end, with what stands there. A zero
    denominator is reported where its digits start, whatever comes behind them. There are no
    other faults. -/
theorem parse_fault_located {s : Stream} {fault : Fault}
    (h : (({} : Parser).parse s).1 = .error (.malformedSource fault)) :
    let text := s.text.toList
    (fault.message = "empty program" ∨
      ∃ expected : Symbol, fault.message = "unexpected " ++ fault.token ++ " at position " ++
        fault.position.repr ++ ", expected " ++ expected.name) ∧
      StuckAt text fault.position ∧ Names text[fault.position]? fault.token ∨
    fault.message = "zero denominator at position " ++ fault.position.repr ∧
      ZeroDenominatorAt text fault.position := by
  intro text
  rw [Parser.parse_eq] at h
  obtain ⟨before, rest, r, htext, hbefore, hrefuses⟩ := Stream.refused_of_parse h
  obtain ⟨ws, hreads⟩ := reads_takeAll hbefore
  have hstuck := stuckAt_of_refuses hbefore hrefuses
  have hnext : (before ++ rest)[before.length]? = rest.head? := by
    rw [List.getElem?_append_right (Nat.le_refl _), Nat.sub_self, List.head?_eq_getElem?]
  rw [show text = before ++ rest from htext]
  rcases Reader.refuses_cases hrefuses with
    ⟨rfl, hnone, hphase, hfractions⟩ | ⟨expected, rfl⟩ | ⟨n, start, d, hphase, hrest, hclose⟩
  · left
    have hbegin : before = [] := by
      have hws : ws = [] := by simpa [hreads.fractions] using hfractions
      rw [hreads.taken, hws, hphase]
      rfl
    subst hbegin
    refine ⟨.inl rfl, hstuck, ?_⟩
    rw [hnone] at hnext
    exact hnext ▸ names_describe none
  · left
    rw [hreads.position]
    exact ⟨.inr ⟨expected, rfl⟩, hstuck, hnext ▸ names_describe rest.head?⟩
  · right
    obtain ⟨rfl, hzero⟩ := zeroDenominatorAt_of_close hbefore hphase hrest hclose
    exact ⟨rfl, hzero⟩

/-- The denominator `00` is reported at its first digit, not the character behind it. -/
theorem parse_fault_located_zeros :
    ∃ fault, (({} : Parser).parse ⟨"1/2,03/00x", false⟩).1 = .error (.malformedSource fault) ∧
      fault.message = "zero denominator at position 7" ∧
      ZeroDenominatorAt "1/2,03/00x".toList 7 := by
  have h : (({} : Parser).parse ⟨"1/2,03/00x", false⟩).1 =
      .error (.malformedSource (.zeroDenominator 7)) := by
    rw [Parser.parse_eq]
    decide +kernel
  rcases parse_fault_located h with ⟨hmessage | ⟨expected, hmessage⟩, -⟩ | ⟨hmessage, hzero⟩
  · exact absurd hmessage (by decide +kernel)
  · cases expected <;> exact absurd hmessage (by decide +kernel)
  · exact ⟨_, h, hmessage, hzero⟩

/-! ## Streams that break off -/

/-- What is behind a viable text is never judged: the stream is unreadable. Any other text has a
    fault, and more text behind it does not change the fault. -/
theorem parse_broken_eq (text : String) :
    (Viable text.toList ∧ (Stream.mk text true).parse = .error .unreadableSource) ∨
      ∃ fault, ¬ Viable text.toList ∧
        (Stream.mk text true).parse = .error (.malformedSource fault) ∧
        ∀ rest broken,
          (Stream.mk (text ++ rest) broken).parse = .error (.malformedSource fault) := by
  cases htake : Reader.takeAll text.toList with
  | ok r =>
    left
    exact ⟨viable_of_takeAll htake, by rw [Stream.parse, htake]; rfl⟩
  | error fault =>
    right
    refine ⟨fault, ?_, by rw [Stream.parse, htake], ?_⟩
    · rw [viable_iff, htake]
      rintro ⟨r, hr⟩
      cases hr
    · intro rest broken
      rw [Stream.parse, String.toList_append, takeAll_append_error htake]

/-- Whatever a parser has read before: a stream that breaks off is unreadable exactly if its text
    is the beginning of an accepted one, and no program comes of it. Otherwise it has the fault
    that a fresh parser finds in every longer text. A stream that ends gives what it gives a
    fresh parser. -/
theorem parse_broken_viable (history : List Stream) (text : String) :
    let parser := Parser.after history
    ((parser.parse ⟨text, true⟩).1 = .error .unreadableSource ↔ Viable text.toList) ∧
    (∀ program, (parser.parse ⟨text, true⟩).1 ≠ .ok program) ∧
    (¬ Viable text.toList → ∃ fault,
      (parser.parse ⟨text, true⟩).1 = .error (.malformedSource fault) ∧
      ∀ rest, (({} : Parser).parse ⟨text ++ rest, false⟩).1 = .error (.malformedSource fault)) ∧
    (parser.parse ⟨text, false⟩).1 = (({} : Parser).parse ⟨text, false⟩).1 := by
  intro parser
  simp only [Parser.parse_eq]
  rcases parse_broken_eq text with ⟨hviable, hparse⟩ | ⟨fault, hnot, hparse, hrest⟩
  · rw [hparse]
    exact ⟨by simp [hviable], by simp, fun hnot => absurd hviable hnot, trivial⟩
  · rw [hparse]
    exact ⟨by simp [hnot], by simp, fun _ => ⟨fault, rfl, fun rest => hrest rest false⟩, trivial⟩

/-- A parser that broke off behind a slash reads `1/2` and `1/x` as a fresh one does. -/
theorem parse_broken_viable_after_slash :
    let parser := Parser.after [⟨"7/", true⟩]
    parser.symbol = .slash ∧ (parser.parse ⟨"1/2", true⟩).1 = .error .unreadableSource ∧
      ∃ fault, (parser.parse ⟨"1/x", true⟩).1 = .error (.malformedSource fault) ∧
        ∀ rest, (({} : Parser).parse ⟨"1/x" ++ rest, false⟩).1 =
          .error (.malformedSource fault) := by
  intro parser
  have hviable : Viable "1/2".toList := by
    rw [viable_iff]
    exact ⟨⟨[], 3, .denominator ['1'] 2 ['2']⟩, by decide +kernel⟩
  have hnot : ¬ Viable "1/x".toList := by
    have hrefused : Reader.takeAll "1/x".toList = .error (.unexpected 2 'x' .digit) := by
      decide +kernel
    rw [viable_iff, hrefused]
    rintro ⟨r, hr⟩
    cases hr
  have hbroken := (parse_broken_viable [⟨"7/", true⟩] "1/2").1
  have hfault := (parse_broken_viable [⟨"7/", true⟩] "1/x").2.2.1
  exact ⟨by decide +kernel, hbroken.2 hviable, hfault hnot⟩

end Fractran.Source
