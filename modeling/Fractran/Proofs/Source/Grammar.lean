/-
  The language of program sources.

  `Spells text ws` is the grammar: one or more fractions with commas between, each two runs of
  digits with a slash between. The reader is a fold over the characters; `Reads` says what it
  knows after any of them, one character keeps it (`Reads.take`), so it holds of every text that
  the reader takes to its end (`reads_takeAll`). In the other direction the reader runs over a
  digit run, a fraction and a whole spelling without a fault (`foldlM_spells`). Together: a text
  gives a program iff the grammar spells it with no denominator zero, and the program has the
  fractions that are spelled (`parse_eq_ok_iff`).
-/
import Fractran.Magnitude.Decimal
import Fractran.Proofs.Fraction
import Fractran.Source.Stream
import Mathlib.Algebra.Field.Rat
import Mathlib.Algebra.Order.Field.Basic
import Mathlib.Algebra.Order.Ring.Rat
import Mathlib.Data.List.Forall2

namespace Fractran

namespace Source

/-! ## The grammar -/

/-- One or more digits. -/
def IsNumeral (ds : List Char) : Prop := ds ≠ [] ∧ ∀ c ∈ ds, c.isDigit = true

/-- The two digit runs of a fraction. -/
structure Written where
  num : List Char
  den : List Char

namespace Written

def text (w : Written) : List Char := w.num ++ '/' :: w.den

def numValue (w : Written) : Nat := Nat.ofDigitChars 10 w.num 0

def denValue (w : Written) : Nat := Nat.ofDigitChars 10 w.den 0

def WellFormed (w : Written) : Prop := IsNumeral w.num ∧ IsNumeral w.den

/-- The fraction is the one that is written, in lowest terms. -/
def Denotes (w : Written) (f : Fraction) : Prop :=
  f.Reduced ∧ f.toRat = (w.numValue : ℚ) / (w.denValue : ℚ)

end Written

/-- The text is the fractions, in their order, with commas between. -/
inductive Spells : List Char → List Written → Prop
  | one {w : Written} (h : w.WellFormed) : Spells w.text [w]
  | more {w : Written} {rest : List Char} {ws : List Written} (h : w.WellFormed)
      (hrest : Spells rest ws) : Spells (w.text ++ ',' :: rest) (w :: ws)

theorem isNumeral_reverse {ds : List Char} : IsNumeral ds.reverse ↔ IsNumeral ds := by
  simp [IsNumeral]

theorem isNumeral_singleton {c : Char} (h : c.isDigit = true) : IsNumeral [c] := by
  simpa [IsNumeral] using h

theorem IsNumeral.cons {c : Char} {ds : List Char} (hc : c.isDigit = true) (h : IsNumeral ds) :
    IsNumeral (c :: ds) :=
  ⟨List.cons_ne_nil _ _, List.forall_mem_cons.2 ⟨hc, h.2⟩⟩

/-- Fractions that each end in a comma, and one more, are a spelling. -/
theorem spells_flatMap {ws : List Written} (h : ∀ w ∈ ws, w.WellFormed) {w : Written}
    (hw : w.WellFormed) : Spells (ws.flatMap (·.text ++ [',']) ++ w.text) (ws ++ [w]) := by
  induction ws with
  | nil => exact .one hw
  | cons v ws ih =>
    have hv := h v (List.mem_cons_self ..)
    have hrest := ih (fun u hu => h u (List.mem_cons_of_mem _ hu))
    simpa using Spells.more hv hrest

/-! ## The fraction that is written -/

theorem Reader.canonical_integer (ds : List Char) : (Reader.integer ds).Canonical :=
  Integer.canonical_ofMagnitude false (Magnitude.canonical_ofDigits _)

theorem Reader.toInt_integer {ds : List Char} (h : IsNumeral ds) :
    (Reader.integer ds).toInt = Nat.ofDigitChars 10 ds.reverse 0 := by
  rw [integer, Integer.toInt_ofMagnitude, Magnitude.toNat_ofDigits (isNumeral_reverse.2 h).2]
  rfl

namespace Written

/-- The fraction as the reader makes it. -/
def fraction (w : Written) : Fraction :=
  .reduce (Reader.integer w.num.reverse) (Reader.integer w.den.reverse)

theorem toInt_num {w : Written} (h : w.WellFormed) :
    (Reader.integer w.num.reverse).toInt = w.numValue := by
  rw [Reader.toInt_integer (isNumeral_reverse.2 h.1), List.reverse_reverse, numValue]

theorem toInt_den {w : Written} (h : w.WellFormed) :
    (Reader.integer w.den.reverse).toInt = w.denValue := by
  rw [Reader.toInt_integer (isNumeral_reverse.2 h.2), List.reverse_reverse, denValue]

theorem denotes_fraction {w : Written} (h : w.WellFormed) (hd : w.denValue ≠ 0) :
    w.Denotes w.fraction := by
  have hden : (Reader.integer w.den.reverse).toInt ≠ 0 := by
    rw [toInt_den h]
    exact_mod_cast hd
  refine ⟨Fraction.reduced_reduce (Reader.canonical_integer _) (Reader.canonical_integer _) hden, ?_⟩
  rw [fraction, Fraction.toRat_reduce (Reader.canonical_integer _) (Reader.canonical_integer _) hden,
    toInt_num h, toInt_den h, Int.cast_natCast, Int.cast_natCast]

/-- The fraction is positive iff its numerator is not written as zero. -/
theorem fraction_pos_iff {w : Written} (h : w.WellFormed) (hd : w.denValue ≠ 0) :
    0 < w.fraction.num.toInt ↔ w.numValue ≠ 0 := by
  obtain ⟨hreduced, hrat⟩ := denotes_fraction h hd
  have hden : (0 : ℚ) < w.denValue := by exact_mod_cast Nat.pos_of_ne_zero hd
  rw [← Fraction.num_toRat hreduced, Rat.num_pos, hrat, div_pos_iff_of_pos_right hden,
    Nat.cast_pos, Nat.pos_iff_ne_zero]

/-- Only one fraction is denoted. -/
theorem Denotes.unique {w : Written} {f g : Fraction} (hf : w.Denotes f) (hg : w.Denotes g) :
    f = g :=
  Fraction.eq_of_toRat_eq hf.1 hg.1 (hf.2.trans hg.2.symm)

/-- The reader closes a fraction unless its denominator is zero. -/
theorem close_eq {w : Written} (h : w.WellFormed) (start : Nat) :
    Reader.close w.num.reverse start w.den.reverse =
      if w.denValue = 0 then .error (.zeroDenominator start) else .ok w.fraction := by
  unfold Reader.close
  by_cases hd : w.denValue = 0
  · rw [if_pos hd, (Fraction.make?_eq_none_iff _ _).2 (by rw [toInt_den h, hd]; rfl)]
  · rw [if_neg hd, Fraction.make?_eq_some (by rw [toInt_den h]; exact_mod_cast hd)]
    rfl

end Written

/-! ## What the reader knows -/

/-- What has been taken of the open fraction. -/
def Phase.text : Phase → List Char
  | .fraction => []
  | .numerator n => n.reverse
  | .slash n => n.reverse ++ ['/']
  | .denominator n _ d => n.reverse ++ '/' :: d.reverse

/-- The runs of the open fraction are numerals, and its denominator starts where it says. -/
def Phase.Open (position : Nat) : Phase → Prop
  | .fraction => True
  | .numerator n => IsNumeral n
  | .slash n => IsNumeral n
  | .denominator n start d => IsNumeral n ∧ IsNumeral d ∧ start + d.length = position

/-- The reader has taken the text: the fractions of `ws`, each with its comma, are finished and
    the rest is the open one. -/
structure Reads (text : List Char) (ws : List Written) (r : Reader) : Prop where
  wellFormed : ∀ w ∈ ws, w.WellFormed
  nonzero : ∀ w ∈ ws, w.denValue ≠ 0
  fractions : r.fractions = (ws.map Written.fraction).reverse
  position : r.position = text.length
  taken : text = ws.flatMap (·.text ++ [',']) ++ r.phase.text
  opened : r.phase.Open r.position

namespace Reads

theorem start : Reads [] [] {} :=
  ⟨by simp, by simp, rfl, rfl, rfl, trivial⟩

/-- A character that stays in the open fraction. -/
theorem advance {text : List Char} {ws : List Written} {r : Reader} (h : Reads text ws r)
    {c : Char} {phase : Phase} (ht : phase.text = r.phase.text ++ [c])
    (ho : phase.Open (r.position + 1)) : Reads (text ++ [c]) ws (r.advance phase) where
  wellFormed := h.wellFormed
  nonzero := h.nonzero
  fractions := h.fractions
  position := by simp [Reader.advance, h.position]
  taken := by rw [h.taken, List.append_assoc, ← ht]; rfl
  opened := ho

/-- A comma that finishes the open fraction. -/
theorem close {text : List Char} {ws : List Written} {r : Reader} (h : Reads text ws r)
    {w : Written} (hw : w.WellFormed) (hd : w.denValue ≠ 0) (ht : r.phase.text = w.text) :
    Reads (text ++ [',']) (ws ++ [w])
      ({ r with fractions := w.fraction :: r.fractions }.advance .fraction) where
  wellFormed := by simpa [or_imp, forall_and] using ⟨h.wellFormed, hw⟩
  nonzero := by simpa [or_imp, forall_and] using ⟨h.nonzero, hd⟩
  fractions := by simp [Reader.advance, h.fractions]
  position := by simp [Reader.advance, h.position]
  taken := by
    rw [h.taken, ht]
    simp [Reader.advance, Phase.text]
  opened := trivial

end Reads

/-! ## One character -/

theorem ofChar_eq_digit_iff (c : Char) : Symbol.ofChar c = .digit ↔ c.isDigit = true := by
  unfold Symbol.ofChar
  split_ifs with h1 h2 h3
  · simp [h1]
  · simp [h2]
  · simpa using h3
  · simpa using h3

theorem ofChar_eq_slash_iff (c : Char) : Symbol.ofChar c = .slash ↔ c = '/' := by
  unfold Symbol.ofChar
  split_ifs with h1 h2 h3 <;> simp_all

theorem ofChar_eq_comma_iff (c : Char) : Symbol.ofChar c = .comma ↔ c = ',' := by
  unfold Symbol.ofChar
  split_ifs with h1 h2 h3 <;> simp_all

/-- A denominator that the reader has closed: it is written, it is not zero, and this is its
    fraction. -/
theorem close_eq_ok {n d : List Char} (hn : IsNumeral n) (hd : IsNumeral d) {start : Nat}
    {f : Fraction} (h : Reader.close n start d = .ok f) :
    ∃ w : Written, w.WellFormed ∧ w.denValue ≠ 0 ∧ w.fraction = f ∧
      w.text = n.reverse ++ '/' :: d.reverse := by
  have hw : (⟨n.reverse, d.reverse⟩ : Written).WellFormed :=
    ⟨isNumeral_reverse.2 hn, isNumeral_reverse.2 hd⟩
  have hclose := Written.close_eq hw start
  simp only [List.reverse_reverse, h] at hclose
  split_ifs at hclose with hz
  exact ⟨_, hw, hz, (Except.ok.inj hclose).symm, rfl⟩

/-- What is known is kept: a character that is taken goes to the open fraction, or it is the
    comma behind it. -/
theorem Reads.take {text : List Char} {ws : List Written} {r r' : Reader} (h : Reads text ws r)
    {c : Char} (ht : r.take c = .ok r') : ∃ ws', Reads (text ++ [c]) ws' r' := by
  have ho := h.opened
  -- One case per transition. Those that take no character are faults, so `ht` refutes them.
  unfold Reader.take at ht
  split at ht
  next hp hc =>
    cases ht
    have hdigit := (ofChar_eq_digit_iff c).1 hc
    exact ⟨ws, h.advance (by rw [hp]; rfl) (isNumeral_singleton hdigit)⟩
  next => cases ht
  next n hp hc =>
    cases ht
    have hdigit := (ofChar_eq_digit_iff c).1 hc
    rw [hp] at ho
    exact ⟨ws, h.advance (by rw [hp]; simp [Phase.text]) (ho.cons hdigit)⟩
  next n hp hc =>
    cases ht
    obtain rfl := (ofChar_eq_slash_iff c).1 hc
    rw [hp] at ho
    exact ⟨ws, h.advance (by rw [hp]; rfl) ho⟩
  next => cases ht
  next n hp hc =>
    cases ht
    have hdigit := (ofChar_eq_digit_iff c).1 hc
    rw [hp] at ho
    exact ⟨ws, h.advance (by rw [hp]; simp [Phase.text]) ⟨ho, isNumeral_singleton hdigit, rfl⟩⟩
  next => cases ht
  next n start d hp hc =>
    cases ht
    have hdigit := (ofChar_eq_digit_iff c).1 hc
    rw [hp] at ho
    obtain ⟨hn, hd, hs⟩ := ho
    refine ⟨ws, h.advance (by rw [hp]; simp [Phase.text]) ⟨hn, hd.cons hdigit, ?_⟩⟩
    rw [List.length_cons, ← Nat.add_assoc, hs]
  next n start d hp hc =>
    obtain rfl := (ofChar_eq_comma_iff c).1 hc
    rw [hp] at ho
    obtain ⟨hn, hd, -⟩ := ho
    obtain ⟨f, hf, ht⟩ := bind_eq_ok_iff.1 ht
    cases ht
    obtain ⟨w, hw, hz, rfl, htext⟩ := close_eq_ok hn hd hf
    exact ⟨ws ++ [w], h.close hw hz (by rw [hp, htext]; rfl)⟩
  next =>
    obtain ⟨f, -, ht⟩ := bind_eq_ok_iff.1 ht
    cases ht

/-! ## Whole texts: what is read is spelled -/

theorem Reads.foldlM {text : List Char} {ws : List Written} {r r' : Reader}
    (h : Reads text ws r) {rest : List Char} (hrest : rest.foldlM Reader.take r = .ok r') :
    ∃ ws', Reads (text ++ rest) ws' r' := by
  induction rest generalizing text ws r with
  | nil =>
    cases hrest
    exact ⟨ws, by simpa using h⟩
  | cons c rest ih =>
    rw [List.foldlM_cons] at hrest
    obtain ⟨s, hc, hrest⟩ := bind_eq_ok_iff.1 hrest
    obtain ⟨ws', hs⟩ := h.take hc
    obtain ⟨vs, hv⟩ := ih hs hrest
    exact ⟨vs, by simpa using hv⟩

theorem reads_takeAll {text : List Char} {r : Reader} (h : Reader.takeAll text = .ok r) :
    ∃ ws, Reads text ws r :=
  Reads.start.foldlM h

/-- Where a text may end, it is a spelling. -/
theorem Reads.finish {text : List Char} {ws : List Written} {r : Reader} (h : Reads text ws r)
    {p : Program} (hp : r.finish = .ok p) :
    ∃ w : Written, Spells text (ws ++ [w]) ∧ w.denValue ≠ 0 ∧
      p.fractions = (ws ++ [w]).map Written.fraction := by
  have ho := h.opened
  have ht := h.taken
  unfold Reader.finish at hp
  split at hp
  next => split_ifs at hp
  next => cases hp
  next => cases hp
  next n start d hphase =>
    rw [hphase] at ho ht
    obtain ⟨f, hf, hp⟩ := bind_eq_ok_iff.1 hp
    cases hp
    obtain ⟨w, hw, hz, rfl, htext⟩ := close_eq_ok ho.1 ho.2.1 hf
    refine ⟨w, ?_, hz, by simp [h.fractions]⟩
    rw [ht, Phase.text, ← htext]
    exact spells_flatMap h.wellFormed hw

/-! ## Whole texts: what is spelled is read -/

theorem foldlM_cons_ok {r s : Reader} {c : Char} (h : r.take c = .ok s) (cs : List Char) :
    (c :: cs).foldlM Reader.take r = cs.foldlM Reader.take s := by
  rw [List.foldlM_cons, h]
  rfl

theorem foldlM_append_ok {r s : Reader} {cs : List Char} (h : cs.foldlM Reader.take r = .ok s)
    (ds : List Char) : (cs ++ ds).foldlM Reader.take r = ds.foldlM Reader.take s := by
  rw [List.foldlM_append, h]
  rfl

/-- A phase that keeps each further digit keeps a run of them. -/
theorem foldlM_digits (phase : List Char → Phase) (fs : List Fraction)
    (hphase : ∀ (position : Nat) (n : List Char) (c : Char), c.isDigit = true →
      Reader.take ⟨fs, position, phase n⟩ c = .ok ⟨fs, position + 1, phase (c :: n)⟩)
    (position : Nat) (n : List Char) {ds : List Char} (h : ∀ c ∈ ds, c.isDigit = true) :
    ds.foldlM Reader.take ⟨fs, position, phase n⟩ =
      .ok ⟨fs, position + ds.length, phase (ds.reverse ++ n)⟩ := by
  induction ds generalizing position n with
  | nil => rfl
  | cons c ds ih =>
    rw [List.forall_mem_cons] at h
    rw [foldlM_cons_ok (hphase position n c h.1), ih (position + 1) (c :: n) h.2]
    simp [Nat.add_comm, Nat.add_left_comm]

/-- A phase that starts with a digit and keeps each further one takes a numeral. -/
theorem foldlM_numeral (start : Phase) (phase : List Char → Phase) (fs : List Fraction)
    (position : Nat)
    (hstart : ∀ c : Char, c.isDigit = true →
      Reader.take ⟨fs, position, start⟩ c = .ok ⟨fs, position + 1, phase [c]⟩)
    (hphase : ∀ (position : Nat) (n : List Char) (c : Char), c.isDigit = true →
      Reader.take ⟨fs, position, phase n⟩ c = .ok ⟨fs, position + 1, phase (c :: n)⟩)
    {ds : List Char} (h : IsNumeral ds) :
    ds.foldlM Reader.take ⟨fs, position, start⟩ =
      .ok ⟨fs, position + ds.length, phase ds.reverse⟩ := by
  obtain ⟨c, cs, rfl⟩ := List.exists_cons_of_ne_nil h.1
  have hd := List.forall_mem_cons.1 h.2
  rw [foldlM_cons_ok (hstart c hd.1), foldlM_digits phase fs hphase (position + 1) [c] hd.2,
    List.reverse_cons, List.length_cons, Nat.add_assoc, Nat.add_comm 1]

theorem foldlM_numerator (fs : List Fraction) (position : Nat) {ds : List Char}
    (h : IsNumeral ds) :
    ds.foldlM Reader.take ⟨fs, position, .fraction⟩ =
      .ok ⟨fs, position + ds.length, .numerator ds.reverse⟩ := by
  apply foldlM_numeral .fraction .numerator fs position _ _ h
  · intro c hc
    simp [Reader.take, (ofChar_eq_digit_iff c).2 hc, Reader.advance]
  · intro position n c hc
    simp [Reader.take, (ofChar_eq_digit_iff c).2 hc, Reader.advance]

theorem foldlM_denominator (fs : List Fraction) (position : Nat) (n : List Char) {ds : List Char}
    (h : IsNumeral ds) :
    ds.foldlM Reader.take ⟨fs, position, .slash n⟩ =
      .ok ⟨fs, position + ds.length, .denominator n position ds.reverse⟩ := by
  apply foldlM_numeral (.slash n) (.denominator n position) fs position _ _ h
  · intro c hc
    simp [Reader.take, (ofChar_eq_digit_iff c).2 hc, Reader.advance]
  · intro next d c hc
    simp [Reader.take, (ofChar_eq_digit_iff c).2 hc, Reader.advance]

/-- From before a fraction the reader takes all of it, and waits for its end. -/
theorem foldlM_written (fs : List Fraction) (position : Nat) {w : Written} (h : w.WellFormed) :
    ∃ next start : Nat, w.text.foldlM Reader.take ⟨fs, position, .fraction⟩ =
      .ok ⟨fs, next, .denominator w.num.reverse start w.den.reverse⟩ := by
  have hnum := foldlM_numerator fs position h.1
  generalize position + w.num.length = middle at hnum
  have hslash : Reader.take ⟨fs, middle, .numerator w.num.reverse⟩ '/' =
      .ok ⟨fs, middle + 1, .slash w.num.reverse⟩ := rfl
  have hden := foldlM_denominator fs (middle + 1) w.num.reverse h.2
  refine ⟨middle + 1 + w.den.length, middle + 1, ?_⟩
  rw [Written.text, foldlM_append_ok hnum, foldlM_cons_ok hslash, hden]

/-- The reader takes a whole spelling, and the program has what it had and what is spelled. -/
theorem foldlM_spells {text : List Char} {ws : List Written} (h : Spells text ws)
    (hz : ∀ w ∈ ws, w.denValue ≠ 0) (fs : List Fraction) (position : Nat) :
    ∃ r, text.foldlM Reader.take ⟨fs, position, .fraction⟩ = .ok r ∧
      r.finish = .ok ⟨fs.reverse ++ ws.map Written.fraction⟩ := by
  induction h generalizing fs position with
  | @one w hw =>
    obtain ⟨next, start, hr⟩ := foldlM_written fs position hw
    have hd := hz w (List.mem_singleton_self w)
    refine ⟨_, hr, ?_⟩
    simp only [Reader.finish, Written.close_eq hw start, if_neg hd]
    simp [bind, Except.bind, pure, Except.pure]
  | @more w rest ws hw _ ih =>
    rw [List.forall_mem_cons] at hz
    obtain ⟨next, start, hr⟩ := foldlM_written fs position hw
    have hcomma : Reader.take ⟨fs, next, .denominator w.num.reverse start w.den.reverse⟩ ',' =
        .ok ⟨w.fraction :: fs, next + 1, .fraction⟩ := by
      change (Reader.close w.num.reverse start w.den.reverse >>= _) = _
      rw [Written.close_eq hw, if_neg hz.1]
      rfl
    obtain ⟨r, hrest, hfinish⟩ := ih hz.2 (w.fraction :: fs) (next + 1)
    refine ⟨r, ?_, ?_⟩
    · rw [foldlM_append_ok hr, foldlM_cons_ok hcomma, hrest]
    · rw [hfinish]
      simp

/-! ## The language -/

/-- A text gives a program iff it is a spelling with no denominator zero. -/
theorem parse_eq_ok_iff (text : List Char) (p : Program) :
    parse text = .ok p ↔ ∃ ws, Spells text ws ∧ (∀ w ∈ ws, w.denValue ≠ 0) ∧
      p.fractions = ws.map Written.fraction := by
  constructor
  · intro h
    obtain ⟨r, hr, hp⟩ := bind_eq_ok_iff.1 h
    obtain ⟨ws, hws⟩ := reads_takeAll hr
    obtain ⟨w, hspells, hz, hfractions⟩ := hws.finish hp
    refine ⟨ws ++ [w], hspells, ?_, hfractions⟩
    simpa [or_imp, forall_and] using ⟨hws.nonzero, hz⟩
  · rintro ⟨ws, hspells, hz, hfractions⟩
    obtain ⟨r, hr, hp⟩ := foldlM_spells hspells hz [] 0
    have htake : Reader.takeAll text = .ok r := hr
    obtain ⟨fractions⟩ := p
    obtain rfl : fractions = ws.map Written.fraction := hfractions
    rw [parse, htake]
    exact hp

theorem Spells.wellFormed {text : List Char} {ws : List Written} (h : Spells text ws) :
    ∀ w ∈ ws, w.WellFormed := by
  induction h with
  | one hw => simpa using hw
  | more hw _ ih => exact List.forall_mem_cons.2 ⟨hw, ih⟩

/-- The fractions that are written are those that are denoted, one by one. -/
theorem forall₂_denotes_iff {ws : List Written} (h : ∀ w ∈ ws, w.WellFormed)
    (hz : ∀ w ∈ ws, w.denValue ≠ 0) (fs : List Fraction) :
    List.Forall₂ Written.Denotes ws fs ↔ fs = ws.map Written.fraction := by
  induction ws generalizing fs with
  | nil => simp
  | cons w ws ih =>
    rw [List.forall_mem_cons] at h hz
    have hw := Written.denotes_fraction h.1 hz.1
    rw [List.forall₂_cons_left_iff, List.map_cons]
    constructor
    · rintro ⟨f, gs, hf, hgs, rfl⟩
      rw [hf.unique hw, (ih h.2 hz.2 gs).1 hgs]
    · rintro rfl
      exact ⟨_, _, hw, (ih h.2 hz.2 _).2 rfl, rfl⟩

/-- A stream that ends is its text; one that gives no program names a fault of the text. -/
theorem Stream.parse_eq (text : String) :
    (Stream.mk text false).parse = (Source.parse text.toList).mapError .malformedSource := by
  unfold Stream.parse Source.parse
  cases Reader.takeAll text.toList with
  | error fault => rfl
  | ok r => cases hf : r.finish <;> simp [bind, Except.bind, Except.mapError, hf]

theorem Stream.parse_eq_ok_iff (text : String) (p : Program) :
    (Stream.mk text false).parse = .ok p ↔ Source.parse text.toList = .ok p := by
  rw [Stream.parse_eq]
  cases Source.parse text.toList <;> simp [Except.mapError]

/-- A stream that breaks off gives no program. -/
theorem Stream.broken_of_parse_eq_ok {s : Stream} {p : Program} (h : s.parse = .ok p) :
    s.broken = false := by
  unfold Stream.parse at h
  split at h
  next => cases h
  next =>
    split_ifs at h with hb
    exact Bool.eq_false_iff.2 hb

/-- A stream that ends gives a program iff its text is spelled with no denominator zero; the
    program has the fractions that are denoted. -/
theorem Stream.parse_eq_ok_iff_denotes (text : String) (p : Program) :
    (Stream.mk text false).parse = .ok p ↔
      ∃ ws, Spells text.toList ws ∧ (∀ w ∈ ws, w.denValue ≠ 0) ∧
        List.Forall₂ Written.Denotes ws p.fractions := by
  rw [Stream.parse_eq_ok_iff, Source.parse_eq_ok_iff]
  constructor
  · rintro ⟨ws, hspells, hz, hfractions⟩
    exact ⟨ws, hspells, hz, (forall₂_denotes_iff hspells.wellFormed hz _).2 hfractions⟩
  · rintro ⟨ws, hspells, hz, hdenotes⟩
    exact ⟨ws, hspells, hz, (forall₂_denotes_iff hspells.wellFormed hz _).1 hdenotes⟩

/-- A stream that ends and gives no program is malformed. -/
theorem Stream.parse_ok_or_malformed (text : String) :
    (∃ q, (Stream.mk text false).parse = .ok q) ∨
      ∃ fault, (Stream.mk text false).parse = .error (.malformedSource fault) := by
  rw [Stream.parse_eq]
  cases Source.parse text.toList with
  | error fault => exact .inr ⟨fault, rfl⟩
  | ok q => exact .inl ⟨q, rfl⟩

end Source

end Fractran
