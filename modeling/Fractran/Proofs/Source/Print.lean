/-
  Printing programs and reading them back.

  A fraction that is not negative prints as two numerals of the grammar, and the reader makes the
  fraction of them again (`Written.fraction_ofFraction`). So the print of a program is a source of
  that program, unless the program is empty or has a negative fraction, and then it is no source
  at all (`parse_text`, `printable_of_parse_text`). What is read from a source is always
  printable; its print is the source itself exactly if every fraction was written in lowest terms
  without superfluous zeros (`text_eq_iff_lowest`).
-/
import Fractran.Proofs.Program
import Fractran.Proofs.Source.Parser

namespace Fractran.Source

/-! ## Spellings as joined fractions -/

/-- A spelling is one or more fractions joined by commas. -/
theorem spells_iff {text : List Char} {ws : List Written} :
    Spells text ws ↔ ws ≠ [] ∧ (∀ w ∈ ws, w.WellFormed) ∧
      text = List.intercalate [','] (ws.map Written.text) := by
  constructor
  · intro h
    induction h with
    | one hw => simpa using hw
    | @more w rest ws hw hrest ih =>
      obtain ⟨hne, hws, rfl⟩ := ih
      refine ⟨List.cons_ne_nil _ _, List.forall_mem_cons.2 ⟨hw, hws⟩, ?_⟩
      rw [List.map_cons, List.intercalate_cons_of_ne_nil (by simpa using hne)]
      simp
  · rintro ⟨hne, hws, rfl⟩
    induction ws with
    | nil => exact absurd rfl hne
    | cons w ws ih =>
      rw [List.forall_mem_cons] at hws
      by_cases hnil : ws = []
      · subst hnil
        simpa using Spells.one hws.1
      · rw [List.map_cons, List.intercalate_cons_of_ne_nil (by simpa using hnil)]
        simpa using Spells.more hws.1 (ih hnil hws.2)

namespace Written

theorem mem_text {w : Written} (h : w.WellFormed) {c : Char} (hc : c ∈ w.text) :
    c = '/' ∨ c.isDigit = true := by
  rcases List.mem_append.1 hc with hc | hc
  · exact .inr (h.1.2 c hc)
  · rcases List.mem_cons.1 hc with hc | hc
    · exact .inl hc
    · exact .inr (h.2.2 c hc)

theorem comma_not_mem_text {w : Written} (h : w.WellFormed) : ',' ∉ w.text := by
  intro hc
  rcases mem_text h hc with hc | hc <;> cases hc

/-- The slash shows where the numerator ends. -/
theorem eq_of_text_eq {v w : Written} (hv : v.WellFormed) (hw : w.WellFormed)
    (h : v.text = w.text) : v = w := by
  have hjoin (w : Written) : w.text = List.intercalate ['/'] [w.num, w.den] := by
    simp [text, List.intercalate]
  have hslash {w : Written} (hw : w.WellFormed) : ∀ ds ∈ [w.num, w.den], '/' ∉ ds := by
    rw [List.forall_mem_cons, List.forall_mem_singleton]
    constructor
    · intro hc
      cases hw.1.2 _ hc
    · intro hc
      cases hw.2.2 _ hc
  rw [hjoin v, hjoin w] at h
  have hsplit := intercalate_inj '/' (by simp) (by simp) (hslash hv) (hslash hw) h
  obtain ⟨hn, hd⟩ : v.num = w.num ∧ v.den = w.den := by simpa using hsplit
  exact congrArg₂ Written.mk hn hd

end Written

theorem map_text_inj {vs ws : List Written} (hv : ∀ v ∈ vs, v.WellFormed)
    (hw : ∀ w ∈ ws, w.WellFormed) (h : vs.map Written.text = ws.map Written.text) : vs = ws := by
  induction vs generalizing ws with
  | nil => exact (List.map_eq_nil_iff.1 h.symm).symm
  | cons v vs ih =>
    obtain ⟨w, rest, rfl, hhead, htail⟩ := List.map_eq_cons_iff.1 h.symm
    rw [List.forall_mem_cons] at hv hw
    rw [Written.eq_of_text_eq hv.1 hw.1 hhead.symm, ih hv.2 hw.2 htail.symm]

/-- A text is spelled in one way. -/
theorem Spells.unique {text : List Char} {vs ws : List Written} (hv : Spells text vs)
    (hw : Spells text ws) : vs = ws := by
  obtain ⟨hvne, hvs, rfl⟩ := spells_iff.1 hv
  obtain ⟨hwne, hws, heq⟩ := spells_iff.1 hw
  apply map_text_inj hvs hws
  exact intercalate_inj ',' (by simpa using hvne) (by simpa using hwne)
    (List.forall_mem_map.2 fun v hv => Written.comma_not_mem_text (hvs v hv))
    (List.forall_mem_map.2 fun w hw => Written.comma_not_mem_text (hws w hw)) heq

theorem Spells.minus_not_mem {text : List Char} {ws : List Written} (h : Spells text ws) :
    '-' ∉ text := by
  induction h with
  | one hw =>
    intro hc
    rcases Written.mem_text hw hc with hc | hc <;> cases hc
  | more hw _ ih =>
    intro hc
    rcases List.mem_append.1 hc with hc | hc
    · rcases Written.mem_text hw hc with hc | hc <;> cases hc
    · rcases List.mem_cons.1 hc with hc | hc
      · cases hc
      · exact ih hc

/-! ## Printed fractions -/

namespace Written

/-- The two numerals that a fraction prints. -/
def ofFraction (f : Fraction) : Written := ⟨f.num.text, f.den.text⟩

theorem text_ofFraction (f : Fraction) : (ofFraction f).text = f.text := rfl

theorem isNumeral_toDigits (n : Nat) : IsNumeral (Nat.toDigits 10 n) :=
  ⟨Nat.toDigits_ne_nil, fun _ hc => isDigit_of_mem_toDigits hc⟩

theorem ofFraction_eq {f : Fraction} (h : f.Reduced) (hf : 0 ≤ f.num.toInt) :
    ofFraction f =
      ⟨Nat.toDigits 10 f.num.toInt.natAbs, Nat.toDigits 10 f.den.toInt.natAbs⟩ := by
  rw [ofFraction, Integer.text_of_nonneg h.1 hf,
    Integer.text_of_nonneg h.2.1 (Int.le_of_lt h.2.2.1)]

theorem wellFormed_ofFraction {f : Fraction} (h : f.Reduced) (hf : 0 ≤ f.num.toInt) :
    (ofFraction f).WellFormed := by
  rw [ofFraction_eq h hf]
  exact ⟨isNumeral_toDigits _, isNumeral_toDigits _⟩

theorem numValue_ofFraction {f : Fraction} (h : f.Reduced) (hf : 0 ≤ f.num.toInt) :
    (ofFraction f).numValue = f.num.toInt.natAbs := by
  rw [ofFraction_eq h hf, numValue, Nat.ofDigitChars_ten_toDigits]

theorem denValue_ofFraction {f : Fraction} (h : f.Reduced) (hf : 0 ≤ f.num.toInt) :
    (ofFraction f).denValue = f.den.toInt.natAbs := by
  rw [ofFraction_eq h hf, denValue, Nat.ofDigitChars_ten_toDigits]

theorem denValue_ofFraction_ne_zero {f : Fraction} (h : f.Reduced) (hf : 0 ≤ f.num.toInt) :
    (ofFraction f).denValue ≠ 0 := by
  have hpos := h.2.2.1
  rw [denValue_ofFraction h hf]
  omega

/-- The reader makes the fraction again of what it prints. -/
theorem fraction_ofFraction {f : Fraction} (h : f.Reduced) (hf : 0 ≤ f.num.toInt) :
    (ofFraction f).fraction = f := by
  have hd := denValue_ofFraction_ne_zero h hf
  refine (denotes_fraction (wellFormed_ofFraction h hf) hd).unique ⟨h, ?_⟩
  have hn' : ((f.num.toInt.natAbs : ℕ) : ℤ) = f.num.toInt := Int.natAbs_of_nonneg hf
  have hd' : ((f.den.toInt.natAbs : ℕ) : ℤ) = f.den.toInt :=
    Int.natAbs_of_nonneg (Int.le_of_lt h.2.2.1)
  rw [numValue_ofFraction h hf, denValue_ofFraction h hf, Fraction.toRat, ← hn', ← hd',
    Int.cast_natCast, Int.cast_natCast, Int.natAbs_natCast, Int.natAbs_natCast]

theorem fraction_nonneg {w : Written} (h : w.WellFormed) (hd : w.denValue ≠ 0) :
    0 ≤ w.fraction.num.toInt := by
  obtain ⟨hreduced, hrat⟩ := denotes_fraction h hd
  rw [← Fraction.num_toRat hreduced, Rat.num_nonneg, hrat]
  exact div_nonneg (Nat.cast_nonneg _) (Nat.cast_nonneg _)

end Written

/-! ## Printed programs -/

/-- The programs that have a source: those with a fraction and without a negative one. -/
def Printable (p : Program) : Prop := p.fractions ≠ [] ∧ ∀ f ∈ p.fractions, 0 ≤ f.sign

theorem Printable.nonneg {p : Program} (h : Printable p) {f : Fraction} (hf : f ∈ p.fractions) :
    0 ≤ f.num.toInt := by
  have := h.2 f hf
  rwa [Fraction.sign, Integer.sign_toInt, Int.sign_nonneg_iff] at this

theorem spells_text {p : Program} (hr : p.Reduced) (h : Printable p) :
    Spells p.text (p.fractions.map Written.ofFraction) := by
  rw [spells_iff]
  refine ⟨by simpa using h.1, ?_, ?_⟩
  · rw [List.forall_mem_map]
    exact fun f hf => Written.wellFormed_ofFraction (hr f hf) (h.nonneg hf)
  · rw [List.map_map]
    rfl

theorem parse_text {p : Program} (hr : p.Reduced) (h : Printable p) : parse p.text = .ok p := by
  rw [parse_eq_ok_iff]
  refine ⟨_, spells_text hr h, ?_, ?_⟩
  · rw [List.forall_mem_map]
    exact fun f hf => Written.denValue_ofFraction_ne_zero (hr f hf) (h.nonneg hf)
  · rw [List.map_map]
    calc p.fractions = p.fractions.map id := (List.map_id _).symm
      _ = _ := List.map_congr_left fun f hf =>
        (Written.fraction_ofFraction (hr f hf) (h.nonneg hf)).symm

theorem mem_intercalate {ls : List (List Char)} {l sep : List Char} (hl : l ∈ ls) {c : Char}
    (hc : c ∈ l) : c ∈ List.intercalate sep ls := by
  induction ls with
  | nil => cases hl
  | cons k ls ih =>
    by_cases hnil : ls = []
    · subst hnil
      obtain rfl := List.mem_singleton.1 hl
      simpa using hc
    · rw [List.intercalate_cons_of_ne_nil hnil]
      rcases List.mem_cons.1 hl with rfl | hl
      · simp [hc]
      · simp [ih hl]

/-- No other print is a source: it would be empty or hold a sign. -/
theorem printable_of_spells_text {p : Program} {ws : List Written} (h : Spells p.text ws) :
    Printable p := by
  constructor
  · intro hnil
    have hempty : p.text = [] := by rw [Program.text, hnil]; rfl
    rw [hempty] at h
    obtain ⟨hne, -, htext⟩ := spells_iff.1 h
    obtain ⟨w, ws, rfl⟩ := List.exists_cons_of_ne_nil hne
    have hslash : '/' ∈ List.intercalate [','] ((w :: ws).map Written.text) :=
      mem_intercalate List.mem_cons_self (by simp [Written.text])
    rw [← htext] at hslash
    cases hslash
  · intro f hf
    rw [Fraction.sign, Integer.sign_toInt, Int.sign_nonneg_iff, ← Int.not_lt]
    intro hneg
    have hminus : '-' ∈ f.text := by simp [Fraction.text, Integer.text_of_neg hneg]
    exact h.minus_not_mem (mem_intercalate (List.mem_map_of_mem hf) hminus)

theorem printable_of_parse_text {p q : Program} (h : parse p.text = .ok q) : Printable p := by
  obtain ⟨ws, hspells, -⟩ := (parse_eq_ok_iff _ _).1 h
  exact printable_of_spells_text hspells

/-! ## Sources that print as they are written -/

/-- A fraction in lowest terms without superfluous zeros. -/
structure Written.Lowest (w : Written) : Prop where
  num : NoLeadingZero w.num
  den : NoLeadingZero w.den
  den_pos : 0 < w.denValue
  coprime : Nat.Coprime w.numValue w.denValue

/-- A fraction prints as it was written iff it was written in lowest terms. -/
theorem Written.text_fraction_eq_iff {w : Written} (h : w.WellFormed) (hd : w.denValue ≠ 0) :
    w.fraction.text = w.text ↔ w.Lowest := by
  obtain ⟨hred, hrat⟩ := denotes_fraction h hd
  have hnonneg := fraction_nonneg h hd
  rw [← text_ofFraction]
  constructor
  · intro htext
    have hw := eq_of_text_eq (wellFormed_ofFraction hred hnonneg) h htext
    have hnum := numValue_ofFraction hred hnonneg
    have hden := denValue_ofFraction hred hnonneg
    have heq := ofFraction_eq hred hnonneg
    rw [hw] at hnum hden heq
    refine ⟨?_, ?_, Nat.pos_of_ne_zero hd, ?_⟩
    · rw [heq]
      exact noLeadingZero_toDigits _
    · rw [heq]
      exact noLeadingZero_toDigits _
    · rw [hnum, hden]
      exact hred.2.2.2
  · rintro ⟨hn, hden, hpos, hcoprime⟩
    have hnum' : w.fraction.num.toInt = w.numValue := by
      rw [← Fraction.num_toRat hred, hrat]
      exact Rat.num_div_eq_of_coprime (Int.natCast_pos.2 hpos) hcoprime
    have hden' : w.fraction.den.toInt = w.denValue := by
      rw [← Fraction.den_toRat hred, hrat]
      exact Rat.den_div_eq_of_coprime (Int.natCast_pos.2 hpos) hcoprime
    have hw : ofFraction w.fraction = w := by
      rw [ofFraction_eq hred hnonneg, hnum', hden', Int.natAbs_natCast, Int.natAbs_natCast,
        numValue, denValue, (toDigits_ofDigitChars_eq_iff h.1.1 h.1.2).2 hn,
        (toDigits_ofDigitChars_eq_iff h.2.1 h.2.2).2 hden]
    rw [hw]

/-- A program prints as its source was written iff all fractions were written in lowest terms. -/
theorem text_eq_iff_lowest {text : List Char} {ws : List Written} (h : Spells text ws)
    (hz : ∀ w ∈ ws, w.denValue ≠ 0) {p : Program} (hp : p.fractions = ws.map Written.fraction) :
    p.text = text ↔ ∀ w ∈ ws, w.Lowest := by
  obtain ⟨hne, hws, rfl⟩ := spells_iff.1 h
  have hprint : p.text = List.intercalate [','] (ws.map fun w => w.fraction.text) := by
    rw [Program.text, hp, List.map_map]
    rfl
  have hcomma : ∀ w ∈ ws, ',' ∉ w.fraction.text := fun w hw =>
    Written.comma_not_mem_text (Written.wellFormed_ofFraction
      (Written.denotes_fraction (hws w hw) (hz w hw)).1
      (Written.fraction_nonneg (hws w hw) (hz w hw)))
  rw [hprint]
  constructor
  · intro heq w hw
    have hmap : (ws.map fun w => w.fraction.text) = ws.map Written.text :=
      intercalate_inj ',' (by simpa using hne) (by simpa using hne) (List.forall_mem_map.2 hcomma)
        (List.forall_mem_map.2 fun v hv => Written.comma_not_mem_text (hws v hv)) heq
    exact (Written.text_fraction_eq_iff (hws w hw) (hz w hw)).1 (List.map_inj_left.1 hmap w hw)
  · intro hlowest
    rw [List.map_congr_left fun w hw =>
      (Written.text_fraction_eq_iff (hws w hw) (hz w hw)).2 (hlowest w hw)]

/-- What is read from a text is in lowest terms and printable. -/
theorem reduced_of_parse {text : List Char} {p : Program} (h : parse text = .ok p) :
    p.Reduced ∧ Printable p := by
  obtain ⟨ws, hspells, hz, hp⟩ := (parse_eq_ok_iff _ _).1 h
  have hws := hspells.wellFormed
  refine ⟨?_, ?_, ?_⟩
  · rw [Program.Reduced, hp, List.forall_mem_map]
    exact fun w hw => (Written.denotes_fraction (hws w hw) (hz w hw)).1
  · rw [hp]
    simpa using (spells_iff.1 hspells).1
  · rw [hp, List.forall_mem_map]
    intro w hw
    rw [Fraction.sign, Integer.sign_toInt, Int.sign_nonneg_iff]
    exact Written.fraction_nonneg (hws w hw) (hz w hw)

/-- Printing and reading are inverse to each other. A program that was pushed from any pairs is
    read back from its print iff it is printable, and its print is malformed otherwise. What was
    read from a source is read back from its print, with the same print again; and the print is
    the source iff the source has all its fractions in lowest terms and no superfluous zero. All
    this is read by one parser, whatever it was left with. -/
theorem parse_toString_inverse (parser : Parser) :
    (∀ (pairs : List (Integer × Integer)) (p : Program),
      (∀ q ∈ pairs, q.1.Canonical ∧ q.2.Canonical) → Program.pushAll ⟨[]⟩ pairs = .ok p →
      ((parser.parse ⟨p.toString, false⟩).1 = .ok p ↔ Printable p) ∧
      (¬ Printable p →
        ∃ fault, (parser.parse ⟨p.toString, false⟩).1 = .error (.malformedSource fault))) ∧
    ∀ (text : String) (p : Program), (parser.parse ⟨text, false⟩).1 = .ok p →
      (∃ q, (parser.parse ⟨p.toString, false⟩).1 = .ok q ∧ q = p ∧ q.toString = p.toString) ∧
      ∃ ws, (∀ vs, Spells text.toList vs ↔ vs = ws) ∧
        (p.toString = text ↔ ∀ w ∈ ws, w.Lowest) := by
  have htext (p : Program) : p.toString.toList = p.text := String.toList_ofList
  simp only [Parser.parse_eq]
  constructor
  · intro pairs p hpairs hp
    have hr : p.Reduced := Program.reduced_pushAll (by simp [Program.Reduced]) hpairs hp
    constructor
    · rw [Stream.parse_eq_ok_iff, htext]
      exact ⟨printable_of_parse_text, parse_text hr⟩
    · intro hnot
      rw [Stream.parse_eq, htext]
      cases hparse : parse p.text with
      | error fault => exact ⟨fault, rfl⟩
      | ok q => exact absurd (printable_of_parse_text hparse) hnot
  · intro text p hparse
    rw [Stream.parse_eq_ok_iff] at hparse
    obtain ⟨hr, hprintable⟩ := reduced_of_parse hparse
    constructor
    · refine ⟨p, ?_, rfl, rfl⟩
      rw [Stream.parse_eq_ok_iff, htext]
      exact parse_text hr hprintable
    · obtain ⟨ws, hspells, hz, hp⟩ := (parse_eq_ok_iff _ _).1 hparse
      refine ⟨ws, fun vs => ⟨fun hvs => hvs.unique hspells, fun hvs => hvs ▸ hspells⟩, ?_⟩
      rw [← text_eq_iff_lowest hspells hz hp, ← String.toList_inj, htext]

/-- One over minus two prints as `-1/2`, which is no source. `03/6` is read as a fraction that
    prints as `1/2` and is read back. -/
theorem parse_toString_inverse_signed_and_padded :
    (∃ p, Program.pushAll ⟨[]⟩ [(.ofInt64 1, .ofInt64 (-2))] = .ok p ∧ p.toString = "-1/2" ∧
      ∃ fault, (({} : Parser).parse ⟨p.toString, false⟩).1 = .error (.malformedSource fault)) ∧
    ∃ p, (({} : Parser).parse ⟨"03/6", false⟩).1 = .ok p ∧ p.toString = "1/2" ∧
      (({} : Parser).parse ⟨p.toString, false⟩).1 = .ok p := by
  constructor
  · have hp : Program.pushAll ⟨[]⟩ [(.ofInt64 1, .ofInt64 (-2))] =
        .ok ⟨[⟨.ofInt64 (-1), .ofInt64 2⟩]⟩ := by decide +kernel
    have hpairs : ∀ q ∈ [(Integer.ofInt64 1, Integer.ofInt64 (-2))],
        q.1.Canonical ∧ q.2.Canonical := by
      rw [List.forall_mem_singleton]
      exact ⟨Integer.canonical_ofInt64 _, Integer.canonical_ofInt64 _⟩
    have hnot : ¬ Printable ⟨[⟨.ofInt64 (-1), .ofInt64 2⟩]⟩ := by
      intro h
      have := h.2 _ (List.mem_singleton_self _)
      exact absurd this (by decide)
    exact ⟨_, hp, by decide +kernel, ((parse_toString_inverse {}).1 _ _ hpairs hp).2 hnot⟩
  · have hp : (({} : Parser).parse ⟨"03/6", false⟩).1 = .ok ⟨[⟨.ofInt64 1, .ofInt64 2⟩]⟩ := by
      rw [Parser.parse_eq]
      decide +kernel
    obtain ⟨⟨q, hq, rfl, -⟩, -⟩ := (parse_toString_inverse {}).2 _ _ hp
    exact ⟨_, hp, by decide +kernel, hq⟩

end Fractran.Source
