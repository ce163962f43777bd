/-
  Long division of magnitudes, as a loop that need not end.

  The loop makes a table: it enters the divisor and doubles it until it has overtaken the
  dividend. For a divisor that is not zero this ends (`exists_ends`), after as many rounds as the
  quotient has bits (`lt_length_doublings_iff`); a zero divisor is never overtaken (`not_ends`).
  The entries are then taken off, the largest first, and leave the quotient and the remainder
  (`foldl_takeOffSized`). The comparisons go by the number of words and are right because every
  entry is canonical. For a divisor below `2 ^ 32` the same words come out as by halves
  (`divLong_eq_divHalf`), so which way is taken does not matter (`divMod_eq_divLong`).
-/
import Fractran.Proofs.Integer.Division
import Fractran.Proofs.Integer.Sum

namespace Fractran.Magnitude

/-! ## The loops -/

/-- The table while it is made: its entries, the last one first, and the next multiple of the
    divisor with its factor. -/
structure Table where
  entries : List (Magnitude × Magnitude)
  multiple : Magnitude
  factor : Magnitude

namespace Table

/-- The table before the first round. -/
def start (n : Magnitude) : Table := ⟨[], n, [1]⟩

/-- One round: the multiple is entered and doubled, unless it has overtaken the dividend. -/
def next? (a : Magnitude) (t : Table) : Option Table :=
  if t.multiple.compareSized a = .gt then none
  else some ⟨(t.multiple, t.factor) :: t.entries, t.multiple.addByHalves t.multiple,
    t.factor.addByHalves t.factor⟩

/-- The loop ends with a table after a number of rounds. -/
inductive Ends (a : Magnitude) : Table → Nat → Table → Prop where
  | stop {t : Table} (h : t.next? a = none) : Ends a t 0 t
  | round {t t₁ t' : Table} {k : Nat} (h : t.next? a = some t₁) (hrest : Ends a t₁ k t') :
      Ends a t (k + 1) t'

end Table

/-- Takes an entry off the rest if it fits, and adds its factor to the quotient. -/
def takeOffSized (state entry : Magnitude × Magnitude) : Magnitude × Magnitude :=
  if entry.1.compareSized state.2 = .gt then state
  else (state.1.addByHalves entry.2, state.2.subByHalves entry.1)

/-- Dividing `a` by `n` gives `q` and leaves `r`: the table is finished after a round for each bit
    of the quotient, and however it was finished, taking its entries off gives `q` and `r`. -/
structure LongDivision (a n q r : Magnitude) : Prop where
  ends : ∃ k t, (Table.start n).Ends a k t
  rounds : ∀ k t, (Table.start n).Ends a k t → ∀ i, i < k ↔ toNat n <<< i ≤ toNat a
  result : ∀ k t, (Table.start n).Ends a k t → t.entries.foldl takeOffSized ([], a) = (q, r)
  quotient : toNat q = toNat a / toNat n
  remainder : toNat r = toNat a % toNat n
  canonical : Canonical q ∧ Canonical r

/-! ## Making the table -/

theorem compareSized_eq_gt_iff {f a : Magnitude} (hf : Canonical f) (ha : Canonical a) :
    compareSized f a = .gt ↔ toNat a < toNat f := by
  rw [← compare_eq_compareSized hf ha, compare_eq, Nat.compare_eq_gt]

namespace Table

theorem next?_eq_none {a : Magnitude} {t : Table} (ha : Canonical a) (hf : Canonical t.multiple)
    (h : toNat a < toNat t.multiple) : t.next? a = none := by
  rw [next?, if_pos ((compareSized_eq_gt_iff hf ha).2 h)]

theorem next?_eq_some {a : Magnitude} {t : Table} (ha : Canonical a) (hf : Canonical t.multiple)
    (h : toNat t.multiple ≤ toNat a) :
    t.next? a =
      some ⟨(t.multiple, t.factor) :: t.entries, double t.multiple, double t.factor⟩ := by
  rw [next?, if_neg (by rw [compareSized_eq_gt_iff hf ha]; omega), ← add_eq_addByHalves,
    ← add_eq_addByHalves]
  rfl

theorem Ends.unique {a : Magnitude} {t t₁ t₂ : Table} {k₁ k₂ : Nat} (h₁ : t.Ends a k₁ t₁)
    (h₂ : t.Ends a k₂ t₂) : k₁ = k₂ ∧ t₁ = t₂ := by
  induction h₁ generalizing k₂ with
  | stop h =>
    cases h₂ with
    | stop => exact ⟨rfl, rfl⟩
    | round h' => cases h.symm.trans h'
  | round h _ ih =>
    cases h₂ with
    | stop h' => cases h.symm.trans h'
    | round h' hrest =>
      cases h.symm.trans h'
      obtain ⟨hk, ht⟩ := ih hrest
      exact ⟨congrArg (· + 1) hk, ht⟩

/-- The loop enters the doublings of the divisor, one in each round. -/
theorem exists_ends {a f g : Magnitude} (ha : Canonical a) (hf : Canonical f)
    (h0 : 0 < toNat f) (entries : List (Magnitude × Magnitude)) :
    ∃ t, (Table.mk entries f g).Ends a (doublings a f g h0).length t ∧
      t.entries = (doublings a f g h0).reverse ++ entries := by
  -- Along the doublings: what is left of the dividend above the multiple gets smaller.
  fun_induction doublings a f g h0 generalizing entries with
  | case1 f g h0 hlt =>
    exact ⟨_, .stop (next?_eq_none ha hf ((below_iff a f).1 hlt)), rfl⟩
  | case2 f g h0 hge ih =>
    rw [Bool.not_eq_true, below_eq_false_iff] at hge
    obtain ⟨t, hends, hentries⟩ := ih (canonical_double hf) ((f, g) :: entries)
    refine ⟨t, .round (next?_eq_some ha hf hge) hends, ?_⟩
    rw [hentries, List.reverse_cons, List.append_assoc]
    rfl

theorem next?_of_nil {a : Magnitude} (ha : Canonical a) {t : Table} (ht : t.multiple = []) :
    ∃ t₁, t.next? a = some t₁ ∧ t₁.multiple = [] := by
  have hle : toNat t.multiple ≤ toNat a := by
    rw [ht]
    exact Nat.zero_le _
  refine ⟨_, next?_eq_some ha (ht ▸ canonical_nil) hle, ?_⟩
  show double t.multiple = []
  rw [ht]
  rfl

/-- A multiple that is zero stays zero and overtakes nothing. -/
theorem not_ends {a : Magnitude} (ha : Canonical a) {t t' : Table} {k : Nat}
    (ht : t.multiple = []) : ¬ t.Ends a k t' := by
  intro h
  induction h with
  | stop h =>
    obtain ⟨t₁, hnext, -⟩ := next?_of_nil ha ht
    cases h.symm.trans hnext
  | round h _ ih =>
    obtain ⟨t₁, hnext, hnil⟩ := next?_of_nil ha ht
    cases h.symm.trans hnext
    exact ih hnil

end Table

/-- The table has an entry for each doubling of the divisor up to the dividend. -/
theorem lt_length_doublings_iff (a : Magnitude) {f : Magnitude} (g : Magnitude)
    (h0 : 0 < toNat f) (i : Nat) :
    i < (doublings a f g h0).length ↔ toNat f <<< i ≤ toNat a := by
  fun_induction doublings a f g h0 generalizing i with
  | case1 f g h0 hlt =>
    rw [below_iff] at hlt
    have hle : toNat f ≤ toNat f <<< i := by
      rw [Nat.shiftLeft_eq]
      exact Nat.le_mul_of_pos_right _ (Nat.two_pow_pos i)
    rw [List.length_nil]
    omega
  | case2 f g h0 hge ih =>
    rw [Bool.not_eq_true, below_eq_false_iff] at hge
    rw [List.length_cons]
    cases i with
    | zero => simpa using hge
    | succ i =>
      rw [Nat.add_lt_add_iff_right, ih, toNat_double, Nat.shiftLeft_succ_inside]

/-! ## Taking the entries off -/

theorem takeOffSized_eq {f r : Magnitude} (hf : Canonical f) (hr : Canonical r)
    (q g : Magnitude) : takeOffSized (q, r) (f, g) = takeOff (f, g) (q, r) := by
  unfold takeOffSized takeOff
  by_cases hlt : toNat r < toNat f
  · rw [if_pos ((compareSized_eq_gt_iff hf hr).2 hlt), if_pos ((below_iff r f).2 hlt)]
  · rw [if_neg (mt (compareSized_eq_gt_iff hf hr).1 hlt), if_neg (mt (below_iff r f).1 hlt),
      add_eq_addByHalves, sub_eq_subByHalves]

/-- From the last entry to the first, the rest and the entries are canonical, so comparing by the
    number of words is right each time. -/
theorem foldl_takeOffSized {a f g : Magnitude} (ha : Canonical a) (hf : Canonical f)
    (hg : Canonical g) (h0 : 0 < toNat f) :
    (doublings a f g h0).reverse.foldl takeOffSized ([], a) =
      (doublings a f g h0).foldr takeOff ([], a) := by
  fun_induction doublings a f g h0 with
  | case1 => rfl
  | case2 f g h0 hge ih =>
    have hrest := canonical_foldr_takeOff ha (double f) (canonical_double hg)
      (by rw [toNat_double]; omega)
    rw [List.reverse_cons, List.foldl_append, ih (canonical_double hf) (canonical_double hg),
      List.foldr_cons]
    exact takeOffSized_eq hf hrest.2 _ g

theorem longDivision {a n : Magnitude} (ha : Canonical a) (hn : Canonical n)
    (h0 : 0 < toNat n) : LongDivision a n (divLong a n h0).1 (divLong a n h0).2 := by
  obtain ⟨t, hends, hentries⟩ := Table.exists_ends (g := [1]) ha hn h0 []
  have hends : (Table.start n).Ends a (doublings a n [1] h0).length t := hends
  refine ⟨⟨_, t, hends⟩, ?_, ?_, (divLong_value a n h0).1, (divLong_value a n h0).2,
    canonical_divLong n h0 ha⟩
  · intro k t' h i
    rw [← (hends.unique h).1]
    exact lt_length_doublings_iff a [1] h0 i
  · intro k t' h
    have hone : Canonical [1] := by decide
    rw [← (hends.unique h).2, hentries, List.append_nil, foldl_takeOffSized ha hn hone h0]
    rfl

/-! ## The two ways to divide -/

/-- For a divisor below `2 ^ 32` the doublings give the words that the halves give. -/
theorem divLong_eq_divHalf {a : Magnitude} (ha : Canonical a) {w : Word}
    (h0 : 0 < toNat [w]) (hw : w.toNat < 0x100000000) :
    divLong a [w] h0 = ((divHalf a w).1, ofWord (divHalf a w).2) := by
  have hword : toNat [w] = w.toNat := by simp
  obtain ⟨hquotient, hremainder⟩ := divHalf_value a (by omega) hw
  obtain ⟨hquotient', hremainder'⟩ := divLong_value a [w] h0
  obtain ⟨hq, hr⟩ := canonical_divLong [w] h0 ha
  apply Prod.ext
  · exact eq_of_toNat_eq hq (canonical_trim _) (by rw [hquotient', hquotient, hword])
  · exact eq_of_toNat_eq hr (canonical_ofWord _)
      (by rw [hremainder', toNat_ofWord, hremainder, hword])

/-- Which way is taken does not matter. -/
theorem divMod_eq_divLong {a n : Magnitude} (ha : Canonical a) (hn : Canonical n)
    (h0 : 0 < toNat n) : divMod a n = divLong a n h0 := by
  by_cases hlt : toNat n < 0x100000000
  · obtain ⟨w, rfl, hdiv⟩ := divMod_of_lt a hn h0 hlt
    rw [hdiv, divLong_eq_divHalf ha h0 (by simpa using hlt)]
  · exact divMod_of_le a h0 (by omega)

/-- For canonical magnitudes the loop that makes the table ends iff the divisor is not zero, after
    one round for each bit of the quotient, and taking the entries off leaves the exact quotient
    and remainder in canonical form. A divisor of one word below `2 ^ 32` gives the words and the
    remainder that the division by halves gives, so the choice between the two changes nothing. -/
theorem long_division_exact {a n : Magnitude} (ha : Canonical a) (hn : Canonical n) :
    ((∃ k t, (Table.start n).Ends a k t) ↔ n ≠ []) ∧
    ∀ h0 : 0 < toNat n,
      LongDivision a n (divLong a n h0).1 (divLong a n h0).2 ∧
      (∀ w, n = [w] → w.toNat < 0x100000000 →
        divLong a n h0 = ((divHalf a w).1, ofWord (divHalf a w).2) ∧
        toNat (divLong a n h0).2 = (divHalf a w).2.toNat) ∧
      divMod a n = divLong a n h0 := by
  refine ⟨⟨?_, ?_⟩, ?_⟩
  · rintro ⟨k, t, hends⟩ rfl
    exact Table.not_ends ha rfl hends
  · intro hne
    exact (longDivision ha hn (toNat_pos_of_canonical hn hne)).ends
  · intro h0
    refine ⟨longDivision ha hn h0, ?_, divMod_eq_divLong ha hn h0⟩
    rintro w rfl hw
    have heq := divLong_eq_divHalf ha h0 hw
    exact ⟨heq, by rw [heq, toNat_ofWord]⟩

/-- `2 ^ 65 + 5` by `3`: the table takes 64 rounds, in which the multiple grows into a second word,
    and the quotient and the remainder are those of the division by halves. -/
theorem long_division_exact_three :
    ∃ t, (Table.start [3]).Ends [5, 2] 64 t ∧
      t.entries.foldl takeOffSized ([], [5, 2]) = ([0xAAAAAAAAAAAAAAAC], [1]) ∧
      divHalf [5, 2] 3 = ([0xAAAAAAAAAAAAAAAC], 1) := by
  have hlong : Canonical [5, 2] := by decide
  obtain ⟨hloop, hshort, -⟩ := (long_division_exact hlong (by decide : Canonical [3])).2 (by decide)
  have hhalf : divHalf [5, 2] 3 = ([0xAAAAAAAAAAAAAAAC], 1) := by decide +kernel
  obtain ⟨k, t, hends⟩ := hloop.ends
  have hk : k = 64 := by
    have hlast := (hloop.rounds k t hends 63).2 (by decide)
    have hover := mt (hloop.rounds k t hends 64).1 (by decide)
    omega
  have hresult := hloop.result k t hends
  have hwords := (hshort 3 rfl (by decide)).1
  rw [hk] at hends
  rw [hwords, hhalf] at hresult
  exact ⟨t, hends, hresult, hhalf⟩

end Fractran.Magnitude
