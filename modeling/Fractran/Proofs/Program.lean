/-
  Programs against rules over natural numbers.

  Every fraction of a program is a rule in lowest terms. On a whole number a program applies the
  fraction whose rule is the first to apply, and the product is the whole number that the rule
  makes (`next?_eq_some`, `next?_eq_none`). Pushing pairs that are not in lowest terms gives a
  program of the same rules up to equal quotients (`pushAll_eq_ok`).
-/
import Fractran.Proofs.Fraction.Registers
import Fractran.Proofs.Trajectory
import Mathlib.Algebra.Order.Ring.Cast
import Mathlib.Algebra.Order.Ring.Rat
import Mathlib.Tactic.Zify

namespace Fractran

/-! ## Whole numbers -/

/-- The fraction is a natural number over one. -/
def Fraction.IsNat (f : Fraction) (x : Nat) : Prop :=
  ∃ v : Integer, f = .ofInteger v ∧ v.Canonical ∧ v.toInt = x

theorem Fraction.IsNat.num {f : Fraction} {x : Nat} (h : f.IsNat x) :
    f.num.Canonical ∧ f.num.toInt = x := by
  obtain ⟨v, rfl, hv⟩ := h
  exact hv

theorem Fraction.IsNat.reduced {f : Fraction} {x : Nat} (h : f.IsNat x) : f.Reduced := by
  obtain ⟨v, rfl, hv, -⟩ := h
  exact reduced_ofInteger hv

theorem Fraction.IsNat.toRat {f : Fraction} {x : Nat} (h : f.IsNat x) : f.toRat = x := by
  obtain ⟨v, rfl, -, hx⟩ := h
  rw [toRat_ofInteger, hx, Int.cast_natCast]

/-- A natural number is printed in the standard notation. -/
theorem Integer.toString_eq_repr {v : Integer} (h : v.Canonical) {x : Nat} (hx : v.toInt = x) :
    v.toString = Nat.repr x := by
  rw [Integer.toString, text_of_nonneg h (by omega), hx, Int.natAbs_natCast]
  rfl

/-! ## Fractions as rules -/

/-- The rule of a positive fraction. -/
def Fraction.rule (f : Fraction) : Rule := ⟨f.num.toInt.toNat, f.den.toInt.toNat⟩

/-- In lowest terms and positive. -/
def Fraction.Valid (f : Fraction) : Prop := f.Reduced ∧ 0 < f.num.toInt

namespace Fraction

theorem Valid.num {f : Fraction} (h : f.Valid) : (f.rule.num : ℤ) = f.num.toInt :=
  Int.toNat_of_nonneg (Int.le_of_lt h.2)

theorem Valid.den {f : Fraction} (h : f.Valid) : (f.rule.den : ℤ) = f.den.toInt :=
  Int.toNat_of_nonneg (Int.le_of_lt h.1.2.2.1)

theorem Valid.positive {f : Fraction} (h : f.Valid) : f.rule.Positive := by
  have hn := h.num
  have hd := h.den
  have hpos := h.1.2.2.1
  have hpos' := h.2
  exact ⟨by omega, by omega⟩

theorem toRat_mul_rule {value f : Fraction} {x : Nat} (hx : value.IsNat x) (hf : f.Valid) :
    (value * f).toRat = ((x * f.rule.num : ℕ) : ℚ) / (f.rule.den : ℕ) := by
  rw [toRat_mul hx.reduced hf.1, hx.toRat, toRat, ← hf.num, ← hf.den]
  push_cast
  rw [mul_div_assoc]

theorem isInt_mul_iff {value f : Fraction} {x : Nat} (hx : value.IsNat x) (hf : f.Valid) :
    (value * f).isInt = true ↔ f.rule.Applies x := by
  have hd : f.rule.den ≠ 0 := Nat.pos_iff_ne_zero.1 hf.positive.2
  rw [isInt_iff (reduced_mul hx.reduced hf.1), toRat_mul_rule hx hf,
    Rat.den_div_natCast_eq_one_iff _ _ hd]
  rfl

theorem isNat_mul {value f : Fraction} {x : Nat} (hx : value.IsNat x) (hf : f.Valid)
    (h : f.rule.Applies x) : (value * f).IsNat (f.rule.apply x) := by
  have hred := reduced_mul hx.reduced hf.1
  have hd : (f.rule.den : ℚ) ≠ 0 := Nat.cast_ne_zero.2 (Nat.pos_iff_ne_zero.1 hf.positive.2)
  refine ⟨(value * f).num, eq_ofInteger_of_isInt ((isInt_mul_iff hx hf).2 h), hred.1, ?_⟩
  obtain ⟨y, hy⟩ := h
  rw [← num_toRat hred, toRat_mul_rule hx hf, Rule.apply_eq_of_mul_eq hf.positive.2 hy, hy,
    Nat.cast_mul, mul_div_cancel_left₀ _ hd, Rat.num_natCast]

end Fraction

namespace Program

/-- The rules of a program. -/
def rules (p : Program) : Rules := p.fractions.map Fraction.rule

/-- All fractions are in lowest terms and positive. -/
def Valid (p : Program) : Prop := ∀ f ∈ p.fractions, f.Valid

theorem Valid.positive {p : Program} (h : p.Valid) : p.rules.Positive := by
  intro r hr
  obtain ⟨f, hf, rfl⟩ := List.mem_map.1 hr
  exact (h f hf).positive

theorem firing?_rules {fs : List Fraction} (h : ∀ f ∈ fs, f.Valid) {value : Fraction} {x : Nat}
    (hx : value.IsNat x) :
    Rules.firing? (fs.map Fraction.rule) x = fs.findIdx? fun f => (value * f).isInt := by
  unfold Rules.firing?
  induction fs with
  | nil => rfl
  | cons f fs ih =>
    have hf : decide (f.rule.Applies x) = (value * f).isInt := by
      rw [Bool.eq_iff_iff, decide_eq_true_iff, Fraction.isInt_mul_iff hx (h f List.mem_cons_self)]
    rw [List.map_cons, List.findIdx?_cons, List.findIdx?_cons, hf,
      ih fun g hg => h g (List.mem_cons_of_mem _ hg)]

/-- The search through the fractions, the first one at position `k`. -/
theorem findSome?_zipIdx (fs : List Fraction) (value : Fraction) (k : Nat) :
    ((fs.zipIdx k).findSome? fun (f, i) =>
      let product := value * f
      if product.isInt then some (⟨f, i, product⟩ : Application) else none) =
    (fs.findIdx? fun f => (value * f).isInt).bind fun i =>
      fs[i]?.map fun f => ⟨f, k + i, value * f⟩ := by
  induction fs generalizing k with
  | nil => rfl
  | cons f fs ih =>
    rw [List.zipIdx_cons, List.findSome?_cons, List.findIdx?_cons]
    by_cases hf : (value * f).isInt = true
    · simp [hf]
    · simp only [hf, Bool.false_eq_true, reduceIte, ih]
      cases fs.findIdx? fun f => (value * f).isInt with
      | none => rfl
      | some i => simp [Nat.add_assoc, Nat.add_comm 1 i]

theorem next?_eq {p : Program} (h : p.Valid) {value : Fraction} {x : Nat} (hx : value.IsNat x) :
    p.next? value = (p.rules.firing? x).bind fun i =>
      p.fractions[i]?.map fun f => ⟨f, i, value * f⟩ := by
  unfold next? rules
  rw [findSome?_zipIdx, firing?_rules h hx]
  simp only [Nat.zero_add]

theorem next?_eq_some {p : Program} (h : p.Valid) {value : Fraction} {x : Nat}
    (hx : value.IsNat x) {a : Application} (ha : p.next? value = some a) :
    p.rules.firing? x = some a.index ∧ p.fractions[a.index]? = some a.fraction ∧
      ∃ y, p.rules.next? x = some y ∧ a.product.IsNat y := by
  rw [next?_eq h hx] at ha
  obtain ⟨i, hi, hmap⟩ := Option.bind_eq_some_iff.1 ha
  obtain ⟨f, hf, rfl⟩ := Option.map_eq_some_iff.1 hmap
  obtain ⟨r, hr, happ, -⟩ := Rules.firing?_eq_some_iff.1 hi
  have hrule : p.rules[i]? = some f.rule := by rw [rules, List.getElem?_map, hf]; rfl
  obtain rfl : r = f.rule := Option.some.inj (hr.symm.trans hrule)
  refine ⟨hi, hf, f.rule.apply x, ?_, ?_⟩
  · exact Rules.next?_eq_some_iff.2 ⟨i, f.rule, hi, hrule, rfl⟩
  · exact Fraction.isNat_mul hx (h f (List.mem_of_getElem? hf)) happ

theorem next?_eq_none {p : Program} (h : p.Valid) {value : Fraction} {x : Nat}
    (hx : value.IsNat x) (hn : p.next? value = none) : p.rules.next? x = none := by
  rw [next?_eq h hx] at hn
  unfold Rules.next?
  cases hf : p.rules.firing? x with
  | none => rfl
  | some i =>
    obtain ⟨r, hr, -⟩ := Rules.firing?_eq_some_iff.1 hf
    rw [rules, List.getElem?_map] at hr
    obtain ⟨f, hf', -⟩ := Option.map_eq_some_iff.1 hr
    rw [hf, Option.bind_some, hf'] at hn
    cases hn

/-- The value after `k` products, each with the first fraction that gives an integer. -/
def iterate (p : Program) (value : Fraction) : Nat → Option Fraction
  | 0 => some value
  | k + 1 => (p.iterate value k).bind fun v => (p.next? v).map Application.product

/-- Values that are integers go along the trajectory. -/
theorem iterate_of_orbit {p : Program} (h : p.Valid) {value : Fraction} {n : Nat}
    (hn : value.IsNat n) {k x : Nat} (hx : p.rules.orbit n k = some x) :
    ∃ v, p.iterate value k = some v ∧ v.IsNat x := by
  induction k generalizing x with
  | zero =>
    obtain rfl := Option.some.inj hx
    exact ⟨value, rfl, hn⟩
  | succ k ih =>
    obtain ⟨y, hy, hnext⟩ := Option.bind_eq_some_iff.1 hx
    obtain ⟨v, hv, hnat⟩ := ih hy
    cases ha : p.next? v with
    | none =>
      rw [next?_eq_none h hnat ha] at hnext
      cases hnext
    | some a =>
      obtain ⟨-, -, z, hz, hproduct⟩ := next?_eq_some h hnat ha
      obtain rfl : z = x := Option.some.inj (hz.symm.trans hnext)
      refine ⟨a.product, ?_, hproduct⟩
      rw [iterate, hv, Option.bind_some, ha, Option.map_some]

/-! ## Pushing pairs -/

/-- A program with more fractions at its end, given as pairs of integers. -/
def pushAll (p : Program) (pairs : List (Integer × Integer)) : Except Error Program :=
  pairs.foldlM (fun p q => p.push q.1 q.2) p

/-- A pair of positive integers, not necessarily in lowest terms. -/
def PositivePair (q : Integer × Integer) : Prop :=
  (q.1.Canonical ∧ 0 < q.1.toInt) ∧ q.2.Canonical ∧ 0 < q.2.toInt

/-- The rule that a pair writes. -/
def pairRule (q : Integer × Integer) : Rule := ⟨q.1.toInt.toNat, q.2.toInt.toNat⟩

theorem valid_reduce {q : Integer × Integer} (h : PositivePair q) :
    (Fraction.reduce q.1 q.2).Valid := by
  obtain ⟨⟨hn, hnpos⟩, hd, hdpos⟩ := h
  have hred := Fraction.reduced_reduce hn hd (by omega)
  refine ⟨hred, ?_⟩
  rw [← Fraction.num_toRat hred, Rat.num_pos, Fraction.toRat_reduce hn hd (by omega)]
  exact div_pos (Int.cast_pos.2 hnpos) (Int.cast_pos.2 hdpos)

/-- Reduction keeps the quotient. -/
theorem same_reduce {q : Integer × Integer} (h : PositivePair q) :
    (pairRule q).Same (Fraction.reduce q.1 q.2).rule := by
  have hv := valid_reduce h
  obtain ⟨⟨hn, hnpos⟩, hd, hdpos⟩ := h
  have hrat := Fraction.toRat_reduce hn hd (by omega)
  have hd' : (q.2.toInt : ℚ) ≠ 0 := by exact_mod_cast hdpos.ne'
  have hden : ((Fraction.reduce q.1 q.2).den.toInt : ℚ) ≠ 0 := by
    exact_mod_cast hv.1.2.2.1.ne'
  rw [Fraction.toRat, div_eq_div_iff hden hd'] at hrat
  refine ⟨by simp only [pairRule]; omega, hv.positive.2, ?_⟩
  have hcross : (Fraction.reduce q.1 q.2).num.toInt * q.2.toInt =
      q.1.toInt * (Fraction.reduce q.1 q.2).den.toInt := by exact_mod_cast hrat
  zify
  rw [hv.num, hv.den, pairRule, Int.toNat_of_nonneg (by omega), Int.toNat_of_nonneg (by omega),
    hcross]

theorem push_eq_ok_iff {p p' : Program} {n d : Integer} :
    p.push n d = .ok p' ↔ d.toInt ≠ 0 ∧ p' = ⟨p.fractions ++ [Fraction.reduce n d]⟩ := by
  unfold push
  rw [bind_eq_ok_iff]
  constructor
  · rintro ⟨f, hf, hp⟩
    obtain ⟨hd, rfl⟩ := Fraction.make_eq_ok_iff.1 hf
    exact ⟨hd, (Except.ok.inj hp).symm⟩
  · rintro ⟨hd, rfl⟩
    exact ⟨_, Fraction.make_eq_ok_iff.2 ⟨hd, rfl⟩, rfl⟩

theorem pushAll_eq_ok (p : Program) {pairs : List (Integer × Integer)}
    (h : ∀ q ∈ pairs, PositivePair q) :
    p.pushAll pairs = .ok ⟨p.fractions ++ pairs.map fun q => .reduce q.1 q.2⟩ := by
  unfold pushAll
  induction pairs generalizing p with
  | nil => simp; rfl
  | cons q pairs ih =>
    have hd : q.2.toInt ≠ 0 := ne_of_gt (h q List.mem_cons_self).2.2
    rw [List.foldlM_cons, push_eq_ok_iff.2 ⟨hd, rfl⟩]
    show pairs.foldlM _ (⟨p.fractions ++ [Fraction.reduce q.1 q.2]⟩ : Program) = _
    rw [ih _ fun x hx => h x (List.mem_cons_of_mem _ hx)]
    simp

/-- All fractions are in lowest terms. -/
def Reduced (p : Program) : Prop := ∀ f ∈ p.fractions, f.Reduced

theorem reduced_push {p p' : Program} (h : p.Reduced) {n d : Integer} (hn : n.Canonical)
    (hd : d.Canonical) (hp : p.push n d = .ok p') : p'.Reduced := by
  obtain ⟨hne, rfl⟩ := push_eq_ok_iff.1 hp
  intro f hf
  rcases List.mem_append.1 hf with hf | hf
  · exact h f hf
  · obtain rfl := List.mem_singleton.1 hf
    exact Fraction.reduced_reduce hn hd hne

/-- Whatever is pushed stands in lowest terms in the program. -/
theorem reduced_pushAll {p p' : Program} (h : p.Reduced) {pairs : List (Integer × Integer)}
    (hpairs : ∀ q ∈ pairs, q.1.Canonical ∧ q.2.Canonical) (hp : p.pushAll pairs = .ok p') :
    p'.Reduced := by
  unfold pushAll at hp
  induction pairs generalizing p with
  | nil =>
    cases hp
    exact h
  | cons q pairs ih =>
    rw [List.forall_mem_cons] at hpairs
    rw [List.foldlM_cons] at hp
    obtain ⟨p₁, hpush, hp⟩ := bind_eq_ok_iff.1 hp
    exact ih (reduced_push h hpairs.1.1 hpairs.1.2 hpush) hpairs.2 hp

/-- Pushed pairs give a valid program of the same rules up to equal quotients. -/
theorem pushAll_valid {pairs : List (Integer × Integer)} (h : ∀ q ∈ pairs, PositivePair q) :
    ∃ p, pushAll ⟨[]⟩ pairs = .ok p ∧ p.Valid ∧
      List.Forall₂ Rule.Same (pairs.map pairRule) p.rules := by
  refine ⟨_, pushAll_eq_ok _ h, ?_, ?_⟩
  · intro f hf
    obtain ⟨q, hq, rfl⟩ := List.mem_map.1 hf
    exact valid_reduce (h q hq)
  · rw [rules, List.nil_append, List.map_map, List.forall₂_map_left_iff,
      List.forall₂_map_right_iff, List.forall₂_same]
    exact fun q hq => same_reduce (h q hq)

end Program

end Fractran
