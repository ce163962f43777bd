/-
  Printing integers and reading them back.

  The digits come out least significant first, in groups of nine: a group below another one is
  padded to nine digits, the most significant one is not (`emitGroup`). Turned round, they are the
  standard notation (`reverse_emit`), and so is the numeral (`text_eq_printed`, `standard_text`).
  A numeral is read back as the integer that printed it (`read_toString`). A numeral that was read
  is printed as it was written exactly if it has no spaces, no superfluous zero and no sign before
  a zero (`toString_eq_iff`).
-/
import Fractran.Proofs.Integer.Numeral
import Fractran.Proofs.Integer.Reading
import Fractran.Proofs.Integer.Registers

namespace Fractran

/-! ## The digits as they come out -/

namespace Magnitude

/-- Whether a group goes on after some digits: below another group until there are nine, in the
    most significant group as long as something is left. -/
def goesOn (top : Bool) (written : Nat) (left : Word) : Bool :=
  if top then left != 0 else written < 9

/-- The digits of a group, least significant first, after some were written. There is always
    one. -/
def emitGroup (top : Bool) (written : Nat) (group : Word) : List Char :=
  if goesOn top (written + 1) (group / 10) then
    digitChar (group % 10) :: emitGroup top (written + 1) (group / 10)
  else [digitChar (group % 10)]
termination_by if top then group.toNat else 9 - written
decreasing_by
  rename_i h
  cases top with
  | false =>
    have hlt : written + 1 < 9 := of_decide_eq_true h
    show 9 - (written + 1) < 9 - written
    omega
  | true =>
    have hleft : (group / 10).toNat ≠ 0 := fun hz => bne_iff_ne.1 h (UInt64.toNat_inj.1 hz)
    have hdiv : (group / 10).toNat = group.toNat / 10 := UInt64.toNat_div _ _
    show (group / 10).toNat < group.toNat
    omega

/-- The digits, least significant first: group by group until nothing is left. -/
def emit (m : Magnitude) : List Char :=
  if isZero m then []
  else emitGroup (divHalf m 1000000000).1.isZero 0 (divHalf m 1000000000).2 ++
    emit (divHalf m 1000000000).1
termination_by toNat m
decreasing_by
  rename_i h
  exact toNat_divHalf_lt m ((isZero_eq_false_iff m).1 (Bool.not_eq_true _ ▸ h))

theorem reverse_emitGroup_inner {written : Nat} (h : written < 9) (group : Word) :
    (emitGroup false written group).reverse = lastDigits (9 - written) group := by
  fun_induction emitGroup false written group with
  | case1 written group hmore ih =>
    have hlt : written + 1 < 9 := of_decide_eq_true hmore
    rw [List.reverse_cons, ih hlt, show 9 - written = 9 - (written + 1) + 1 by omega, lastDigits]
  | case2 written group hlast =>
    have hge : ¬ written + 1 < 9 := fun hlt => hlast (decide_eq_true hlt)
    rw [show 9 - written = 1 by omega]
    rfl

theorem reverse_emitGroup_top (written : Nat) (group : Word) :
    (emitGroup true written group).reverse = Nat.toDigits 10 group.toNat := by
  have hmod (w : Word) : (w % 10).toNat = w.toNat % 10 := UInt64.toNat_mod _ _
  have hdiv (w : Word) : (w / 10).toNat = w.toNat / 10 := UInt64.toNat_div _ _
  fun_induction emitGroup true written group with
  | case1 written group hmore ih =>
    have hpos : 0 < group.toNat / 10 := by
      rw [← hdiv]
      exact Nat.pos_of_ne_zero fun hz => bne_iff_ne.1 hmore (UInt64.toNat_inj.1 hz)
    have hlast : Nat.toDigits 10 (group.toNat % 10) = [digitChar (group % 10)] := by
      rw [Nat.toDigits_of_lt_base (Nat.mod_lt _ (by decide)), digitChar, hmod]
    rw [List.reverse_cons, ih, hdiv, ← hlast,
      Nat.toDigits_append_toDigits (by decide) hpos (Nat.mod_lt _ (by decide)), Nat.div_add_mod]
  | case2 written group hlast =>
    have hleft : group / 10 = 0 := by
      by_contra hne
      exact hlast (bne_iff_ne.2 hne)
    have hzero : group.toNat / 10 = 0 := by rw [← hdiv, hleft]; rfl
    have hlt : group.toNat < 10 := by omega
    rw [Nat.toDigits_of_lt_base hlt, List.reverse_singleton, digitChar, hmod, Nat.mod_eq_of_lt hlt]

/-- Turned round, the digits are the standard notation. -/
theorem reverse_emit {m : Magnitude} (h : isZero m = false) :
    (emit m).reverse = Nat.toDigits 10 (toNat m) := by
  fun_induction emit m with
  | case1 m hz => rw [hz] at h; cases h
  | case2 m _ ih =>
    obtain ⟨hq, hr⟩ := divHalf_value m (n := 1000000000) (by decide) (by decide)
    have hn : UInt64.toNat 1000000000 = 1000000000 := rfl
    rw [hn] at hq hr
    rw [List.reverse_append]
    cases htop : isZero (divHalf m 1000000000).1 with
    | true =>
      -- the only group: nothing is emitted for the quotient
      have hzero := (isZero_iff _).1 htop
      rw [emit, if_pos htop, reverse_emitGroup_top, List.reverse_nil, List.nil_append, hr,
        Nat.mod_eq_of_lt (by omega)]
    | false =>
      have hpos := (isZero_eq_false_iff _).1 htop
      have hlt : (divHalf m 1000000000).2.toNat < 10 ^ 9 := by
        rw [hr]
        exact Nat.mod_lt _ (by decide)
      rw [ih htop, reverse_emitGroup_inner (by decide),
        toDigits_ofDigitChars_append (lastDigits_isDigit 9 _) hpos, ofDigitChars_lastDigits 9 _ hlt,
        hq, hr]
      congr 1
      omega

end Magnitude

/-! ## The standard notation -/

/-- The standard decimal notation of an integer: `0`, or digits of which the first is not zero,
    behind a `-` if the integer is below zero. -/
inductive Standard : Int → List Char → Prop where
  | zero : Standard 0 ['0']
  | positive {ds : List Char} (hne : ds ≠ []) (hd : ∀ c ∈ ds, c.isDigit = true)
      (hfirst : ds.head? ≠ some '0') : Standard (Nat.ofDigitChars 10 ds 0) ds
  | negative {ds : List Char} (hne : ds ≠ []) (hd : ∀ c ∈ ds, c.isDigit = true)
      (hfirst : ds.head? ≠ some '0') : Standard (-(Nat.ofDigitChars 10 ds 0 : Int)) ('-' :: ds)

theorem head?_toDigits {n : Nat} (h : 0 < n) : (Nat.toDigits 10 n).head? ≠ some '0' := by
  intro hfirst
  obtain ⟨rest, hrest⟩ := List.head?_eq_some_iff.1 hfirst
  obtain rfl := noLeadingZero_toDigits n rest hrest
  have hzero : n = 0 := toDigits_inj hrest
  omega

namespace Integer

/-- The numeral as it is put together: the digits as they come out, then the sign, and all of it
    turned round. -/
def printed (a : Integer) : List Char :=
  if a.isZero then ['0'] else (a.magnitude.emit ++ if a.negative then ['-'] else []).reverse

theorem text_eq_printed {a : Integer} (h : a.Canonical) : a.text = a.printed := by
  unfold text printed
  rw [Magnitude.digits_eq_toDigits]
  cases hz : a.isZero with
  | true =>
    have hnil := (Magnitude.isZero_iff_eq_nil h.1).1 hz
    rw [h.2 hnil, hnil]
    rfl
  | false =>
    rw [if_neg Bool.false_ne_true, List.reverse_append, Magnitude.reverse_emit hz]
    cases a.negative <;> rfl

theorem standard_text {a : Integer} (h : a.Canonical) : Standard a.toInt a.text := by
  have hdigits {n : Nat} : ∀ c ∈ Nat.toDigits 10 n, c.isDigit = true :=
    fun _ hc => isDigit_of_mem_toDigits hc
  rcases Int.lt_trichotomy a.toInt 0 with hneg | hzero | hpos
  · rw [text_of_neg hneg]
    have hs := Standard.negative Nat.toDigits_ne_nil hdigits
      (head?_toDigits (Int.natAbs_pos.2 (Int.ne_of_lt hneg)))
    rwa [Nat.ofDigitChars_ten_toDigits, Int.ofNat_natAbs_of_nonpos (Int.le_of_lt hneg),
      Int.neg_neg] at hs
  · rw [text_of_nonneg h (Int.le_of_eq hzero.symm), hzero]
    exact .zero
  · rw [text_of_nonneg h (Int.le_of_lt hpos)]
    have hs := Standard.positive Nat.toDigits_ne_nil hdigits
      (head?_toDigits (Int.natAbs_pos.2 (Int.ne_of_gt hpos)))
    rwa [Nat.ofDigitChars_ten_toDigits, Int.natAbs_of_nonneg (Int.le_of_lt hpos)] at hs

end Integer

/-! ## Reading back -/

namespace Numeral

/-- The numeral that an integer prints. -/
def ofInt (x : Int) : Numeral :=
  ⟨0, decide (x < 0), Nat.toDigits 10 x.natAbs, 0, Nat.toDigits_ne_nil,
    fun _ hc => isDigit_of_mem_toDigits hc⟩

theorem text_ofInt {a : Integer} (h : a.Canonical) : (ofInt a.toInt).text = a.text := by
  have hbody : (ofInt a.toInt).text = (ofInt a.toInt).body := List.append_nil _
  rw [hbody, body]
  split
  next hneg => exact (Integer.text_of_neg (of_decide_eq_true hneg)).symm
  next hneg =>
    have hnonneg : 0 ≤ a.toInt := Int.not_lt.1 fun hlt => hneg (decide_eq_true hlt)
    exact (Integer.text_of_nonneg h hnonneg).symm

theorem value_ofInt (x : Int) : (ofInt x).value = x := by
  have hdigits : Nat.ofDigitChars 10 (ofInt x).digits 0 = x.natAbs :=
    Nat.ofDigitChars_ten_toDigits
  rw [value, hdigits]
  split
  next hneg =>
    have hlt : x < 0 := of_decide_eq_true hneg
    omega
  next hneg =>
    have hge : ¬ x < 0 := fun hlt => hneg (decide_eq_true hlt)
    omega

/-- Only the spaces around it set the text apart from the sign and the digits. -/
theorem text_eq_body_iff (n : Numeral) : n.text = n.body ↔ ' ' ∉ n.text := by
  constructor
  · intro h
    rw [h]
    exact n.space_not_mem_body
  · intro h
    have hbefore : n.before = 0 := by
      by_contra hne
      exact h (by simp [text, hne])
    have hafter : n.after = 0 := by
      by_contra hne
      exact h (by simp [text, hne])
    simp [text, hbefore, hafter]

/-- A numeral that is read prints its sign and its digits again iff no leading zero can be left
    out and there is no sign before a zero. -/
theorem text_integer_eq_body_iff (n : Numeral) :
    n.integer.text = n.body ↔
      NoLeadingZero n.digits ∧ ¬ (n.negative = true ∧ n.value = 0) := by
  have hc := n.denotes_integer.canonical
  have hv := n.denotes_integer.value
  have hstandard := toDigits_ofDigitChars_eq_iff n.nonempty n.isDigit
  rw [value] at hv
  rw [value, body]
  cases hneg : n.negative with
  | false =>
    rw [hneg, if_neg Bool.false_ne_true] at hv
    rw [Integer.text_of_nonneg hc (by omega), hv, Int.natAbs_natCast]
    simpa using hstandard
  | true =>
    rw [hneg, if_pos rfl] at hv
    rw [if_pos rfl, if_pos rfl]
    rcases Nat.eq_zero_or_pos (Nat.ofDigitChars 10 n.digits 0) with hzero | hpos
    · -- a zero prints no sign
      rw [Integer.text_of_nonneg hc (by omega)]
      constructor
      · intro h
        exact absurd h (Integer.toDigits_ne_minus_cons _ _)
      · rintro ⟨-, hne⟩
        exact absurd ⟨rfl, by omega⟩ hne
    · rw [Integer.text_of_neg (by omega), hv, Int.natAbs_neg, Int.natAbs_natCast,
        List.cons_inj_right, hstandard]
      constructor
      · intro h
        exact ⟨h, by omega⟩
      · exact And.left

end Numeral

namespace Integer

theorem read_toString {a : Integer} (h : a.Canonical) : read a.toString = .ok a := by
  have htext : (Numeral.ofInt a.toInt).text = a.toString.toList := by
    rw [Numeral.text_ofInt h, toString, String.toList_ofList]
  have hdenotes := (Numeral.ofInt a.toInt).denotes_integer
  rw [read_numeral htext, eq_of_toInt_eq hdenotes.canonical h
    (hdenotes.value.trans (Numeral.value_ofInt _))]

theorem toString_eq_iff {text : String} {a : Integer} (h : read text = .ok a) {n : Numeral}
    (hn : n.text = text.toList) :
    a.toString = text ↔
      ' ' ∉ text.toList ∧ NoLeadingZero n.digits ∧ ¬ (n.negative = true ∧ n.value = 0) := by
  obtain rfl : n.integer = a := by
    rw [read_numeral hn] at h
    exact Except.ok.inj h
  rw [← n.text_integer_eq_body_iff, ← String.toList_inj, toString, String.toList_ofList, ← hn]
  constructor
  · intro htext
    have hspace : ' ' ∉ n.text := by
      rw [← htext]
      intro hmem
      rcases isDigit_of_mem_text hmem with hc | hc <;> cases hc
    exact ⟨hspace, htext.trans (n.text_eq_body_iff.2 hspace)⟩
  · rintro ⟨hspace, hbody⟩
    rw [hbody, n.text_eq_body_iff.2 hspace]

namespace Registers

/-- Whatever is in the registers prints, digit by digit, as the standard notation of its value and
    is read back from it. A text that is read is printed again exactly if it has no spaces, no
    superfluous leading zero and no sign before a zero. -/
theorem toString_read_inverse :
    (∀ regs : Registers, Reachable regs → ∀ a ∈ regs,
      a.toString.toList = a.printed ∧ Standard a.toInt a.toString.toList ∧
        read a.toString = .ok a) ∧
    ∀ (text : String) (a : Integer), read text = .ok a →
      (∃ n : Numeral, n.text = text.toList) ∧
      ∀ n : Numeral, n.text = text.toList →
        (a.toString = text ↔
          ' ' ∉ text.toList ∧ NoLeadingZero n.digits ∧ ¬ (n.negative = true ∧ n.value = 0)) := by
  constructor
  · intro regs hreach a ha
    have hc := hreach.canonical a ha
    rw [toString, String.toList_ofList]
    exact ⟨text_eq_printed hc, standard_text hc, read_toString hc⟩
  · intro text a hread
    exact ⟨numeral_of_read hread, fun n hn => toString_eq_iff hread hn⟩

/-- Three groups of zeros below the most significant one are all printed. `007` is read, but it
    is not printed again. -/
theorem toString_read_inverse_zero_groups :
    (∃ a : Integer, Reachable [a] ∧ a.toInt = -1000000000000000000000000000 ∧
      a.printed = "-1000000000000000000000000000".toList ∧ read a.toString = .ok a) ∧
    ∃ a : Integer, read "007" = .ok a ∧ a.toString ≠ "007" := by
  constructor
  · have hreach : Reachable [⟨true, [0x9fd0803ce8000000, 54210108]⟩] :=
      reachable_of_numerals ["-1000000000000000000000000000"] (by decide +kernel)
    obtain ⟨hprinted, -, hread⟩ :=
      toString_read_inverse.1 _ hreach _ (List.mem_singleton_self _)
    refine ⟨_, hreach, by decide, ?_, hread⟩
    rw [← hprinted]
    decide +kernel
  · have hread : read "007" = .ok ⟨false, [7]⟩ := by decide +kernel
    let seven : Numeral := ⟨0, false, ['0', '0', '7'], 0, by decide, List.all_eq_true.1 (by decide)⟩
    have hiff := (toString_read_inverse.2 _ _ hread).2 seven (by decide)
    refine ⟨_, hread, ?_⟩
    intro hprints
    cases (hiff.1 hprints).2.1 ['0', '7'] rfl

end Registers

end Integer

end Fractran
