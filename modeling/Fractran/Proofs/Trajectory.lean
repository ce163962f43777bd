/-
  FRACTRAN over natural numbers.

  A rule multiplies and divides; it applies where the division is exact. Rules need not be in
  lowest terms. From a number the first rule that applies makes the next number, and so on:
  `orbit rules n k` is what stands after `k` applications, if there were that many, and
  `maker rules n k` the index of the rule that made it.

  Main statements:
  - `orbit_congr`, `maker_congr`: rules of equal quotients make the same numbers in the same way;
  - `orbit_pos`: from a positive number positive rules only make positive numbers.
-/
import Mathlib.Data.List.Forall2
import Mathlib.Data.List.Induction

namespace Fractran

/-- Multiplication by `num` followed by division by `den`. -/
structure Rule where
  num : Nat
  den : Nat
  deriving DecidableEq

namespace Rule

/-- The division leaves no remainder. -/
def Applies (r : Rule) (x : Nat) : Prop := r.den ∣ x * r.num

instance (r : Rule) (x : Nat) : Decidable (r.Applies x) := inferInstanceAs (Decidable (_ ∣ _))

/-- What the rule makes of a number. -/
def apply (r : Rule) (x : Nat) : Nat := x * r.num / r.den

/-- Numerator and denominator are positive. -/
def Positive (r : Rule) : Prop := 0 < r.num ∧ 0 < r.den

/-- Two rules with positive denominators and the same quotient. -/
def Same (r s : Rule) : Prop := 0 < r.den ∧ 0 < s.den ∧ r.num * s.den = s.num * r.den

theorem Same.symm {r s : Rule} (h : r.Same s) : s.Same r := ⟨h.2.1, h.1, h.2.2.symm⟩

/-- What is an exact multiple under one rule is the same multiple under the other. -/
theorem Same.mul_eq {r s : Rule} (h : r.Same s) {x y : Nat} (hy : x * r.num = r.den * y) :
    x * s.num = s.den * y := by
  obtain ⟨hr, -, heq⟩ := h
  apply Nat.eq_of_mul_eq_mul_right hr
  calc x * s.num * r.den = x * (s.num * r.den) := Nat.mul_assoc _ _ _
    _ = x * r.num * s.den := by rw [← heq, Nat.mul_assoc]
    _ = r.den * y * s.den := by rw [hy]
    _ = s.den * y * r.den := by rw [Nat.mul_right_comm, Nat.mul_comm r.den, Nat.mul_right_comm]

theorem Same.applies_iff {r s : Rule} (h : r.Same s) (x : Nat) : r.Applies x ↔ s.Applies x :=
  ⟨fun ⟨y, hy⟩ => ⟨y, h.mul_eq hy⟩, fun ⟨y, hy⟩ => ⟨y, h.symm.mul_eq hy⟩⟩

theorem apply_eq_of_mul_eq {r : Rule} (hr : 0 < r.den) {x y : Nat} (hy : x * r.num = r.den * y) :
    r.apply x = y := by
  rw [apply, hy, Nat.mul_div_cancel_left _ hr]

theorem Same.apply_eq {r s : Rule} (h : r.Same s) {x : Nat} (hx : r.Applies x) :
    r.apply x = s.apply x := by
  obtain ⟨y, hy⟩ := hx
  rw [apply_eq_of_mul_eq h.1 hy, apply_eq_of_mul_eq h.2.1 (h.mul_eq hy)]

theorem apply_pos {r : Rule} (hr : r.Positive) {x : Nat} (hx : 0 < x) (h : r.Applies x) :
    0 < r.apply x :=
  Nat.div_pos (Nat.le_of_dvd (Nat.mul_pos hx hr.1) h) hr.2

end Rule

/-- A list of rules, tried in order. -/
abbrev Rules := List Rule

namespace Rules

/-- The index of the first rule that applies. -/
def firing? (rules : Rules) (x : Nat) : Option Nat := rules.findIdx? fun r => decide (r.Applies x)

/-- What the first rule that applies makes of a number. -/
def next? (rules : Rules) (x : Nat) : Option Nat :=
  (rules.firing? x).bind fun i => rules[i]?.map fun r => r.apply x

/-- The number after `k` applications. -/
def orbit (rules : Rules) (n : Nat) : Nat → Option Nat
  | 0 => some n
  | k + 1 => (rules.orbit n k).bind rules.next?

/-- The index of the rule that made the number after `k` applications; the first one was given. -/
def maker (rules : Rules) (n : Nat) : Nat → Option Nat
  | 0 => none
  | k + 1 => (rules.orbit n k).bind rules.firing?

/-- The first `k` numbers of the trajectory, or all of them if it ends earlier. -/
def values (rules : Rules) (n k : Nat) : List Nat := (List.range k).filterMap (rules.orbit n)

/-- All rules are positive. -/
def Positive (rules : Rules) : Prop := ∀ r ∈ rules, r.Positive

/-! ## One application -/

theorem firing?_eq_some_iff {rules : Rules} {x i : Nat} :
    rules.firing? x = some i ↔ ∃ r, rules[i]? = some r ∧ r.Applies x ∧
      ∀ j s, j < i → rules[j]? = some s → ¬ s.Applies x := by
  unfold firing?
  rw [List.findIdx?_eq_some_iff_getElem]
  constructor
  · rintro ⟨hi, happ, hmin⟩
    refine ⟨rules[i], List.getElem?_eq_getElem hi, by simpa using happ, ?_⟩
    intro j s hj hs
    obtain ⟨hj', rfl⟩ := List.getElem?_eq_some_iff.1 hs
    simpa using hmin j hj
  · rintro ⟨r, hr, happ, hmin⟩
    obtain ⟨hi, rfl⟩ := List.getElem?_eq_some_iff.1 hr
    refine ⟨hi, by simpa using happ, ?_⟩
    intro j hj
    simpa using hmin j _ hj (List.getElem?_eq_getElem (by omega))

theorem next?_eq_some_iff {rules : Rules} {x y : Nat} :
    rules.next? x = some y ↔ ∃ i r, rules.firing? x = some i ∧ rules[i]? = some r ∧
      y = r.apply x := by
  unfold next?
  cases hf : rules.firing? x with
  | none => simp
  | some i =>
    cases hr : rules[i]? with
    | none => simp [hr]
    | some r => simp [hr, eq_comm]

/-- There is no next number exactly where no rule applies. -/
theorem next?_eq_none_iff {rules : Rules} {x : Nat} :
    rules.next? x = none ↔ ∀ r ∈ rules, ¬ r.Applies x := by
  have hfiring : rules.firing? x = none ↔ ∀ r ∈ rules, ¬ r.Applies x := by
    unfold firing?
    rw [List.findIdx?_eq_none_iff]
    simp
  rw [← hfiring]
  cases hf : rules.firing? x with
  | none => simp [next?, hf]
  | some i =>
    obtain ⟨r, hr, -⟩ := firing?_eq_some_iff.1 hf
    simp [next?, hf, hr]

theorem next?_pos {rules : Rules} (h : rules.Positive) {x y : Nat} (hx : 0 < x)
    (hy : rules.next? x = some y) : 0 < y := by
  obtain ⟨i, r, hi, hr, rfl⟩ := next?_eq_some_iff.1 hy
  obtain ⟨r', hr', happ, -⟩ := firing?_eq_some_iff.1 hi
  obtain rfl : r = r' := Option.some.inj (hr.symm.trans hr')
  exact Rule.apply_pos (h r (List.mem_of_getElem? hr)) hx happ

/-! ## Orbits -/

theorem orbit_isSome_of_le {rules : Rules} {n j k : Nat} (hjk : j ≤ k)
    (h : (rules.orbit n k).isSome) : (rules.orbit n j).isSome := by
  induction k with
  | zero => rwa [Nat.le_zero.1 hjk]
  | succ k ih =>
    rcases Nat.lt_or_eq_of_le hjk with hlt | rfl
    · apply ih (by omega)
      rw [orbit] at h
      exact Option.isSome_of_isSome_bind h
    · exact h

theorem orbit_pos {rules : Rules} (h : rules.Positive) {n : Nat} (hn : 0 < n) {k x : Nat}
    (hx : rules.orbit n k = some x) : 0 < x := by
  induction k generalizing x with
  | zero =>
    obtain rfl := Option.some.inj hx
    exact hn
  | succ k ih =>
    obtain ⟨y, hy, hnext⟩ := Option.bind_eq_some_iff.1 hx
    exact next?_pos h (ih hy) hnext

/-- Every number but the first was made by a rule of the list. -/
theorem maker_eq_some {rules : Rules} {n k x : Nat} (h0 : 0 < k)
    (hx : rules.orbit n k = some x) : ∃ i, rules.maker n k = some i ∧ i < rules.length := by
  obtain ⟨k, rfl⟩ := Nat.exists_eq_add_of_lt h0
  rw [Nat.zero_add] at hx ⊢
  obtain ⟨y, hy, hnext⟩ := Option.bind_eq_some_iff.1 hx
  obtain ⟨i, r, hi, hr, -⟩ := next?_eq_some_iff.1 hnext
  refine ⟨i, ?_, (List.getElem?_eq_some_iff.1 hr).1⟩
  rw [maker, hy, Option.bind_some, hi]

/-- A list that goes along the trajectory lists its values. -/
theorem values_length_eq_map {rules : Rules} {n : Nat} {α : Type} (g : α → Nat) (l : List α)
    (h : ∀ j a, l[j]? = some a → rules.orbit n j = some (g a)) :
    rules.values n l.length = l.map g := by
  induction l using List.reverseRecOn with
  | nil => rfl
  | append_singleton l a ih =>
    have hlast : rules.orbit n l.length = some (g a) := h _ a (by simp)
    have hinit : ∀ j b, l[j]? = some b → rules.orbit n j = some (g b) := by
      intro j b hb
      apply h
      rw [List.getElem?_append_left (List.getElem?_eq_some_iff.1 hb).1, hb]
    have ih := ih hinit
    unfold values at ih ⊢
    rw [List.length_append, List.length_singleton, List.range_succ, List.filterMap_append, ih,
      List.map_append]
    simp [hlast]

/-! ## Rules of equal quotients -/

theorem firing?_congr {rules rules' : Rules} (h : List.Forall₂ Rule.Same rules rules') (x : Nat) :
    rules.firing? x = rules'.firing? x := by
  unfold firing?
  induction h with
  | nil => rfl
  | cons hrs _ ih =>
    rw [List.findIdx?_cons, List.findIdx?_cons, ih, decide_eq_decide.2 (hrs.applies_iff x)]

theorem next?_congr {rules rules' : Rules} (h : List.Forall₂ Rule.Same rules rules') :
    rules.next? = rules'.next? := by
  funext x
  unfold next?
  rw [← firing?_congr h x]
  cases hf : rules.firing? x with
  | none => rfl
  | some i =>
    obtain ⟨r, hr, happ, -⟩ := firing?_eq_some_iff.1 hf
    obtain ⟨hi, rfl⟩ := List.getElem?_eq_some_iff.1 hr
    have hi' : i < rules'.length := h.length_eq ▸ hi
    have hsame : rules[i].Same rules'[i] := h.get hi hi'
    rw [Option.bind_some, Option.bind_some, hr, List.getElem?_eq_getElem hi', Option.map_some,
      Option.map_some, hsame.apply_eq happ]

theorem orbit_congr {rules rules' : Rules} (h : List.Forall₂ Rule.Same rules rules') (n : Nat) :
    rules.orbit n = rules'.orbit n := by
  funext k
  induction k with
  | zero => rfl
  | succ k ih => rw [orbit, orbit, ih, next?_congr h]

theorem maker_congr {rules rules' : Rules} (h : List.Forall₂ Rule.Same rules rules') (n : Nat) :
    rules.maker n = rules'.maker n := by
  funext k
  cases k with
  | zero => rfl
  | succ k => rw [maker, maker, orbit_congr h, funext (firing?_congr h)]

theorem values_congr {rules rules' : Rules} (h : List.Forall₂ Rule.Same rules rules') (n : Nat) :
    rules.values n = rules'.values n := by
  funext k
  rw [values, values, orbit_congr h]

end Rules

end Fractran
