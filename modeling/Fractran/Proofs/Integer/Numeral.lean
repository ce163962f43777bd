/-
  The numerals of integers.

  The numeral of a canonical integer is its absolute value in the standard notation, behind a `-`
  exactly if the integer is below zero (`text_of_nonneg`, `text_of_neg`). So a numeral holds
  nothing but digits and a sign, canonical integers with one numeral are equal
  (`eq_of_text_eq`), and numerals that are joined by a separator can be told apart
  (`intercalate_inj`). A run of digits is the standard notation of its value exactly if it has no
  superfluous leading zero (`toDigits_ofDigitChars_eq_iff`).
-/
import Fractran.Magnitude.Decimal
import Fractran.Proofs.Integer.Comparison

namespace Fractran

/-- Texts without the separator are told apart after they are joined by it. -/
theorem intercalate_inj (sep : Char) {xs ys : List (List Char)} (hx : xs ≠ []) (hy : ys ≠ [])
    (hxs : ∀ x ∈ xs, sep ∉ x) (hys : ∀ y ∈ ys, sep ∉ y)
    (h : List.intercalate [sep] xs = List.intercalate [sep] ys) : xs = ys := by
  rw [← List.splitOn_intercalate sep hxs hx, h, List.splitOn_intercalate sep hys hy]

/-! ## Standard notation -/

theorem isDigit_of_mem_toDigits {n : Nat} {c : Char} (h : c ∈ Nat.toDigits 10 n) :
    c.isDigit = true :=
  Nat.isDigit_of_mem_toDigits (by decide) (by decide) h

/-- Standard notations of two numbers differ. -/
theorem toDigits_inj {m n : Nat} (h : Nat.toDigits 10 m = Nat.toDigits 10 n) : m = n := by
  have := congrArg (fun ds => Nat.ofDigitChars 10 ds 0) h
  simpa using this

/-- A zero that leads the digits stands alone. -/
def NoLeadingZero (ds : List Char) : Prop := ∀ rest, ds = '0' :: rest → rest = []

theorem noLeadingZero_toDigits (n : Nat) : NoLeadingZero (Nat.toDigits 10 n) := by
  intro rest h
  rcases Nat.eq_zero_or_pos n with rfl | hpos
  · exact (List.cons.inj h).2.symm
  · -- leaving out leading zeros changes nothing, so there is none
    have hdigits : ∀ c ∈ Nat.toDigits 10 n, c.isDigit = true := fun c => isDigit_of_mem_toDigits
    have hdrop := Magnitude.dropWhile_zero_eq_toDigits hdigits (by simpa using hpos)
    rw [Nat.ofDigitChars_ten_toDigits, h] at hdrop
    have hlen := (List.dropWhile_sublist (· == '0') (l := rest)).length_le
    rw [List.dropWhile_cons_of_pos (by decide)] at hdrop
    rw [hdrop, List.length_cons] at hlen
    omega

/-- Digits are the standard notation of their value iff no leading zero can be left out. -/
theorem toDigits_ofDigitChars_eq_iff {ds : List Char} (hne : ds ≠ [])
    (h : ∀ c ∈ ds, c.isDigit = true) :
    Nat.toDigits 10 (Nat.ofDigitChars 10 ds 0) = ds ↔ NoLeadingZero ds := by
  constructor
  · intro heq
    rw [← heq]
    exact noLeadingZero_toDigits _
  · intro hz
    obtain ⟨c, rest, rfl⟩ := List.exists_cons_of_ne_nil hne
    rw [List.forall_mem_cons] at h
    by_cases hc : c = '0'
    · subst hc
      obtain rfl := hz rest rfl
      rfl
    · have hdigit := Magnitude.isDigit_iff.1 h.1
      have hzero : '0'.toNat = 48 := rfl
      have hpos : 0 < c.toNat - 48 := by
        have : c.toNat ≠ 48 := fun he => hc (Char.toNat_inj.1 he)
        omega
      rw [Nat.ofDigitChars_cons, Nat.mul_zero, Nat.zero_add, hzero,
        ← Magnitude.toDigits_ofDigitChars_append h.2 hpos, Magnitude.toDigits_digit h.1]
      rfl

namespace Integer

/-! ## Numerals -/

theorem text_of_nonneg {a : Integer} (h : a.Canonical) (ha : 0 ≤ a.toInt) :
    a.text = Nat.toDigits 10 a.toInt.natAbs := by
  rw [text, negative_eq_false h ha, if_neg Bool.false_ne_true, Magnitude.digits_eq_toDigits,
    natAbs_toInt]

theorem text_of_neg {a : Integer} (ha : a.toInt < 0) :
    a.text = '-' :: Nat.toDigits 10 a.toInt.natAbs := by
  rw [text, negative_eq_true ha, if_pos rfl, Magnitude.digits_eq_toDigits, natAbs_toInt]

theorem isDigit_of_mem_text {a : Integer} {c : Char} (h : c ∈ a.text) :
    c = '-' ∨ c.isDigit = true := by
  unfold text at h
  rw [Magnitude.digits_eq_toDigits] at h
  split at h
  · rcases List.mem_cons.1 h with rfl | h
    · exact .inl rfl
    · exact .inr (isDigit_of_mem_toDigits h)
  · exact .inr (isDigit_of_mem_toDigits h)

theorem slash_not_mem_text (a : Integer) : '/' ∉ a.text := by
  intro h
  rcases isDigit_of_mem_text h with h | h <;> cases h

/-- A numeral that starts with a sign is no run of digits. -/
theorem toDigits_ne_minus_cons (n : Nat) (ds : List Char) : Nat.toDigits 10 n ≠ '-' :: ds := by
  intro h
  have hmem : '-' ∈ Nat.toDigits 10 n := h ▸ List.mem_cons_self
  cases isDigit_of_mem_toDigits hmem

/-- A canonical integer is determined by its numeral. -/
theorem eq_of_text_eq {a b : Integer} (ha : a.Canonical) (hb : b.Canonical)
    (h : a.text = b.text) : a = b := by
  apply eq_of_toInt_eq ha hb
  rcases Int.lt_or_le a.toInt 0 with hna | hpa <;> rcases Int.lt_or_le b.toInt 0 with hnb | hpb
  · rw [text_of_neg hna, text_of_neg hnb] at h
    have := toDigits_inj (List.cons.inj h).2
    omega
  · rw [text_of_neg hna, text_of_nonneg hb hpb] at h
    exact absurd h.symm (toDigits_ne_minus_cons _ _)
  · rw [text_of_nonneg ha hpa, text_of_neg hnb] at h
    exact absurd h (toDigits_ne_minus_cons _ _)
  · rw [text_of_nonneg ha hpa, text_of_nonneg hb hpb] at h
    have := toDigits_inj h
    omega

end Integer

end Fractran
