/-
  What holds of registers of fractions after any run of instructions.

  Every instruction keeps all registers in lowest terms (`exec_reduced`, `Reachable.reduced`); a
  product is not reduced afterwards, so this rests on the crosswise cancelling. In lowest terms a
  rational has one representation and one text, and the tests, which look at a numerator or a
  denominator alone, are exact (`normal`, `testsExact`, `comparesExact`). A quotient fails exactly
  over zero (`make_eq_error_iff`).
-/
import Fractran.Fraction.Registers
import Fractran.Proofs.Fraction
import Fractran.Proofs.Integer.Numeral
import Fractran.Proofs.Integer.Registers
import Mathlib.Algebra.Order.Ring.Rat

namespace Fractran.Fraction

/-! ## Making a fraction -/

theorem make_eq_ok_iff {n d : Integer} {f : Fraction} :
    make n d = .ok f ↔ d.toInt ≠ 0 ∧ f = reduce n d := by
  unfold make
  by_cases hd : d.toInt = 0
  · rw [(make?_eq_none_iff n d).2 hd]
    simp [hd]
  · rw [make?_eq_some hd]
    simp [hd, eq_comm]

theorem make_eq_error_iff (n d : Integer) (e : Error) :
    make n d = .error e ↔ d.toInt = 0 ∧ e = .zeroDenominator n := by
  unfold make
  by_cases hd : d.toInt = 0
  · rw [(make?_eq_none_iff n d).2 hd]
    simp [hd, eq_comm]
  · rw [make?_eq_some hd]
    simp [hd]

/-- The fractions that registers may start from: zero, an integer, or a quotient of two. -/
inductive Initial : Fraction → Prop where
  | zero : Initial .zero
  | whole {n : Integer} (hn : n.Canonical) : Initial (.ofInteger n)
  | quotient {n d : Integer} {f : Fraction} (hn : n.Canonical) (hd : d.Canonical)
      (h : make n d = .ok f) : Initial f

theorem Initial.reduced {f : Fraction} (h : Initial f) : f.Reduced := by
  cases h with
  | zero => exact reduced_ofInteger Integer.canonical_zero
  | whole hn => exact reduced_ofInteger hn
  | quotient hn hd h =>
    obtain ⟨hne, rfl⟩ := make_eq_ok_iff.1 h
    exact reduced_reduce hn hd hne

/-- What a literal is read as may stand in a register. -/
theorem Literal.initial_of_read {literal : Literal} {f : Fraction} (h : literal.read = .ok f) :
    Initial f := by
  unfold read at h
  cases literal with
  | zero =>
    cases h
    exact .zero
  | whole n =>
    obtain ⟨v, hn, h⟩ := bind_eq_ok_iff.1 h
    cases h
    exact .whole (Integer.Initial.numeral hn).canonical
  | quotient n d =>
    obtain ⟨v, hn, h⟩ := bind_eq_ok_iff.1 h
    obtain ⟨w, hd, h⟩ := bind_eq_ok_iff.1 h
    exact .quotient (Integer.Initial.numeral hn).canonical (Integer.Initial.numeral hd).canonical h

/-! ## Lowest terms -/

/-- The normal form: a positive denominator without common divisor, and zero as `0/1`. -/
structure Normal (f : Fraction) : Prop where
  den_pos : 0 < f.den.toInt
  coprime : Nat.Coprime f.num.toInt.natAbs f.den.toInt.natAbs
  zero : f.toRat = 0 → f.num = .zero ∧ f.den = .one

/-- All tests of a fraction say what holds of the rational. -/
structure TestsExact (f : Fraction) : Prop where
  isInt : f.isInt = true ↔ ∃ z : ℤ, f.toRat = z
  positive : f.sign = 1 ↔ 0 < f.toRat
  zero : f.sign = 0 ↔ f.toRat = 0
  negative : f.sign = -1 ↔ f.toRat < 0

/-- Two fractions are equal, and have the same text, exactly if they are the same rational. -/
structure ComparesExact (f g : Fraction) : Prop where
  eq : (f == g) = true ↔ f.toRat = g.toRat
  ne : (f != g) = true ↔ f.toRat ≠ g.toRat
  text : f.toString = g.toString ↔ (f == g) = true

theorem eq_iff_toRat_eq {f g : Fraction} (hf : f.Reduced) (hg : g.Reduced) :
    f = g ↔ f.toRat = g.toRat :=
  ⟨congrArg toRat, eq_of_toRat_eq hf hg⟩

theorem normal {f : Fraction} (h : f.Reduced) : Normal f where
  den_pos := h.2.2.1
  coprime := h.2.2.2
  zero := by
    intro h0
    have hzero : zero.toRat = 0 := toRat_ofInteger .zero
    obtain rfl := eq_of_toRat_eq h (reduced_ofInteger Integer.canonical_zero) (h0.trans hzero.symm)
    exact ⟨rfl, rfl⟩

theorem testsExact {f : Fraction} (h : f.Reduced) : TestsExact f := by
  have hsign : f.sign = f.toRat.num.sign := by rw [num_toRat h, sign, Integer.sign_toInt]
  refine ⟨?_, ?_, ?_, ?_⟩
  · rw [isInt_iff h, Rat.den_eq_one_iff]
    constructor
    · intro hz
      exact ⟨f.toRat.num, hz.symm⟩
    · rintro ⟨z, hz⟩
      rw [hz, Rat.num_intCast]
  · rw [hsign, Int.sign_eq_one_iff_pos, Rat.num_pos]
  · rw [hsign, Int.sign_eq_zero_iff_zero, Rat.num_eq_zero]
  · rw [hsign, Int.sign_eq_neg_one_iff_neg, Rat.num_neg]

/-- The text as two numerals with one slash between. -/
theorem text_eq_intercalate (f : Fraction) :
    f.text = List.intercalate ['/'] [f.num.text, f.den.text] := by
  simp [text, List.intercalate]

/-- A fraction of canonical integers is determined by its text: the slash shows where the
    numerator ends. -/
theorem eq_of_text_eq {f g : Fraction} (hf : f.Reduced) (hg : g.Reduced) (h : f.text = g.text) :
    f = g := by
  have hslash (f : Fraction) : ∀ l ∈ [f.num.text, f.den.text], '/' ∉ l := by
    simp [Integer.slash_not_mem_text]
  rw [text_eq_intercalate, text_eq_intercalate] at h
  have hsplit := intercalate_inj '/' (by simp) (by simp) (hslash f) (hslash g) h
  obtain ⟨hn, hd⟩ : f.num.text = g.num.text ∧ f.den.text = g.den.text := by simpa using hsplit
  have hnum := Integer.eq_of_text_eq hf.1 hg.1 hn
  have hden := Integer.eq_of_text_eq hf.2.1 hg.2.1 hd
  exact congrArg₂ Fraction.mk hnum hden

theorem comparesExact {f g : Fraction} (hf : f.Reduced) (hg : g.Reduced) :
    ComparesExact f g where
  eq := by rw [beq_iff_eq, eq_iff_toRat_eq hf hg]
  ne := by rw [bne_iff_ne, ne_eq, eq_iff_toRat_eq hf hg]
  text := by
    rw [beq_iff_eq]
    constructor
    · intro h
      exact eq_of_text_eq hf hg (String.ofList_inj.1 h)
    · rintro rfl
      rfl

namespace Registers

/-! ## One instruction -/

/-- Every register is in lowest terms. -/
def AllReduced (regs : Registers) : Prop := ∀ f ∈ regs, f.Reduced

theorem reduced_get {regs : Registers} (h : AllReduced regs) (i : Nat) : (regs.get i).Reduced := by
  unfold get
  by_cases hi : i < regs.length
  · rw [List.getD_eq_getElem?_getD, List.getElem?_eq_getElem hi]
    exact h _ (List.getElem_mem hi)
  · rw [List.getD_eq_getElem?_getD, List.getElem?_eq_none (by omega)]
    exact Initial.zero.reduced

theorem allReduced_set {regs : Registers} (h : AllReduced regs) (i : Nat) {f : Fraction}
    (hf : f.Reduced) : AllReduced (regs.set i f) := by
  intro g hg
  rcases List.mem_or_eq_of_mem_set hg with hg | rfl
  · exact h g hg
  · exact hf

theorem exec_reduced {regs regs' : Registers} {i : Instruction} (h : AllReduced regs)
    (he : regs.exec i = .ok regs') : AllReduced regs' := by
  cases i with
  | multiply target source =>
    cases he
    exact allReduced_set h target (reduced_mul (reduced_get h target) (reduced_get h source))
  | product target left right =>
    cases he
    exact allReduced_set h target (reduced_mul (reduced_get h left) (reduced_get h right))
  | load target literal =>
    unfold exec at he
    obtain ⟨f, hf, he⟩ := bind_eq_ok_iff.1 he
    cases he
    exact allReduced_set h target (Literal.initial_of_read hf).reduced

theorem step_reduced {regs : Registers} (i : Instruction) (h : AllReduced regs) :
    AllReduced (regs.step i) := by
  unfold step
  split
  · rename_i regs' he
    exact exec_reduced h he
  · exact h

/-! ## Runs of instructions -/

/-- The contents that registers can have: those they may start from, and what any instruction
    makes of them, whether it fails or not. -/
inductive Reachable : Registers → Prop where
  | start {regs : Registers} (h : ∀ f ∈ regs, Initial f) : Reachable regs
  | step {regs : Registers} (i : Instruction) (h : Reachable regs) : Reachable (regs.step i)

theorem Reachable.reduced {regs : Registers} (h : Reachable regs) : AllReduced regs := by
  induction h with
  | start h => exact fun f hf => (h f hf).reduced
  | step i _ ih => exact step_reduced i ih

/-- Whatever instructions were run, every register is in normal form and all its tests are exact;
    fractions are equal, and print alike, exactly if they are the same rational. Products and
    quotients are those of the rationals, and a quotient fails exactly if its divisor is zero. -/
theorem reachable_normal {regs regs' : Registers} (h : Reachable regs) (h' : Reachable regs') :
    (∀ f ∈ regs, Normal f ∧ TestsExact f) ∧
    (∀ f ∈ regs, ∀ g ∈ regs', ComparesExact f g ∧ (f * g).toRat = f.toRat * g.toRat) ∧
    (∀ n d e, make n d = .error e ↔ d.toInt = 0 ∧ e = .zeroDenominator n) ∧
    ∀ n d f, n.Canonical → d.Canonical → make n d = .ok f → f.toRat = n.toInt / d.toInt := by
  have hr := h.reduced
  have hr' := h'.reduced
  refine ⟨fun f hf => ⟨normal (hr f hf), testsExact (hr f hf)⟩, fun f hf g hg =>
    ⟨comparesExact (hr f hf) (hr' g hg), toRat_mul (hr f hf) (hr' g hg)⟩, make_eq_error_iff, ?_⟩
  intro n d f hn hd hf
  obtain ⟨hne, rfl⟩ := make_eq_ok_iff.1 hf
  exact toRat_reduce hn hd hne

/-- `-6/4` multiplied by itself leaves `9/4`, which is no integer and differs from zero. -/
theorem reachable_normal_square :
    ∃ regs : Registers, Reachable regs ∧ regs = [⟨.ofInt64 9, .ofInt64 4⟩, .zero] ∧
      TestsExact ⟨.ofInt64 9, .ofInt64 4⟩ ∧ ComparesExact ⟨.ofInt64 9, .ofInt64 4⟩ .zero := by
  have hmake : make (.ofInt64 (-6)) (.ofInt64 4) = .ok ⟨.ofInt64 (-3), .ofInt64 2⟩ := by
    decide +kernel
  have hstart : Reachable [⟨.ofInt64 (-3), .ofInt64 2⟩, .zero] := by
    apply Reachable.start
    rw [List.forall_mem_cons, List.forall_mem_singleton]
    exact ⟨.quotient (Integer.canonical_ofInt64 _) (Integer.canonical_ofInt64 _) hmake, .zero⟩
  have hstep := hstart.step (.multiply 0 0)
  have heq : step [⟨.ofInt64 (-3), .ofInt64 2⟩, .zero] (.multiply 0 0) =
      [⟨.ofInt64 9, .ofInt64 4⟩, .zero] := by decide +kernel
  rw [heq] at hstep
  obtain ⟨htests, hcompares, -⟩ := reachable_normal hstep hstep
  exact ⟨_, hstep, rfl, (htests _ (by simp)).2, (hcompares _ (by simp) _ (by simp)).1⟩

end Registers

end Fractran.Fraction
