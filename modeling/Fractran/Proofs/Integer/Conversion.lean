/-
  Conversion between integers and machine integers.

  A machine integer becomes the canonical integer of its value; its absolute value is found without
  overflow also for the least one (`toNat_absWord`), and it is the integer that any numeral of the
  value gives (`read_ofInt64`). The way back looks at the magnitude alone and takes exactly those
  below `2 ^ 63` (`toInt64?_eq`). The range of machine integers reaches one further below zero, so
  the conversion is exact on all integers but one: the least machine integer is refused
  (`converts_iff`, `toInt64_ofInt64_iff`).
-/
import Fractran.Proofs.Integer.Printing

namespace Fractran

/-! ## Words and machine integers -/

/-- A word below `2 ^ 63` is the machine integer of the same value. -/
theorem Word.toInt_toInt64 {w : Word} (h : w.toNat < 0x8000000000000000) :
    w.toInt64.toInt = w.toNat := by
  rw [← Int64.toInt_toBitVec, UInt64.toBitVec_toInt64, BitVec.toInt_eq_toNat_of_lt,
    UInt64.toNat_toBitVec]
  rw [UInt64.toNat_toBitVec]
  omega

namespace Integer

/-- The absolute value of a machine integer. Below zero, one is added before the sign changes and
    again after it, since the least machine integer has no counterpart above zero. -/
def absWord (v : Int64) : Word := if v < 0 then (-(v + 1)).toUInt64 + 1 else v.toUInt64

theorem toNat_toUInt64 {v : Int64} (h : 0 ≤ v.toInt) : v.toUInt64.toNat = v.toInt.toNat := by
  rw [← UInt64.toNat_toBitVec, Int64.toBitVec_toUInt64, ← Int64.toInt_toBitVec]
  rw [← Int64.toInt_toBitVec] at h
  rw [BitVec.toInt_eq_toNat_of_lt, Int.toNat_natCast]
  exact BitVec.toInt_pos_iff.1 h

/-- Machine integers in range are turned without overflow. -/
theorem toInt_neg_int64 {v : Int64} (h : v.toInt ≠ -0x8000000000000000) :
    (-v).toInt = -v.toInt := by
  have hle := Int64.le_toInt v
  have hlt := Int64.toInt_lt v
  rw [Int64.toInt_neg, Int.bmod_eq_of_le_mul_two (by omega) (by omega)]

theorem toNat_absWord (v : Int64) : (absWord v).toNat = v.toInt.natAbs := by
  have hle := Int64.le_toInt v
  have hlt := Int64.toInt_lt v
  have hneg : v < 0 ↔ v.toInt < 0 := Int64.lt_iff_toInt_lt
  unfold absWord
  split
  · rename_i h
    have h := hneg.1 h
    have hsucc : (v + 1).toInt = v.toInt + 1 := by
      rw [Int64.toInt_add, Int64.toInt_one, Int.bmod_eq_of_le_mul_two (by omega) (by omega)]
    have hturned : (-(v + 1)).toInt = -(v.toInt + 1) := by
      rw [toInt_neg_int64 (by omega), hsucc]
    rw [UInt64.toNat_add, UInt64.toNat_one, toNat_toUInt64 (by omega), hturned]
    omega
  · rename_i h
    have h := mt hneg.2 h
    rw [toNat_toUInt64 (by omega)]
    omega

/-! ## The way back -/

/-- Exactly the magnitudes below `2 ^ 63` are taken, and keep their value. -/
theorem toInt64?_eq {a : Integer} (h : a.Canonical) :
    a.toInt64? =
      if a.toInt.natAbs < 0x8000000000000000 then some (Int64.ofInt a.toInt) else none := by
  rw [natAbs_toInt]
  obtain ⟨negative, m⟩ := a
  match m with
  | [] =>
    obtain rfl : negative = false := h.2 rfl
    rfl
  | [w] =>
    have hw : Magnitude.toNat [w] = w.toNat := by simp
    have hlt : w < 0x8000000000000000 ↔ w.toNat < 0x8000000000000000 := UInt64.lt_iff_toNat_lt
    simp only [toInt64?, toInt_mk, hw, hlt]
    split
    · rename_i hfits
      have hvalue := Word.toInt_toInt64 hfits
      congr 1
      apply Int64.toInt_inj.1
      rw [Int64.toInt_ofInt_of_le (by split <;> omega) (by split <;> omega)]
      split
      · rw [toInt_neg_int64 (by omega), hvalue]
      · exact hvalue
    · rfl
  | w :: v :: ws =>
    have hpos : 0 < Magnitude.toNat (v :: ws) :=
      Magnitude.toNat_pos_of_canonical (Magnitude.canonical_tail h.1) (List.cons_ne_nil _ _)
    rw [if_neg (by rw [Magnitude.toNat_cons]; omega)]
    rfl

theorem toInt64_of_lt {a : Integer} (h : a.Canonical)
    (hlt : a.toInt.natAbs < 0x8000000000000000) : a.toInt64 = .ok (Int64.ofInt a.toInt) := by
  rw [toInt64, toInt64?_eq h, if_pos hlt]

theorem toInt64_of_le {a : Integer} (h : a.Canonical)
    (hle : 0x8000000000000000 ≤ a.toInt.natAbs) : a.toInt64 = .error .overflow := by
  rw [toInt64, toInt64?_eq h, if_neg (Nat.not_lt.2 hle)]

/-- The integer is converted exactly: to the machine integer of its value if there is one, and
    otherwise not at all. -/
structure Converts (a : Integer) : Prop where
  value : -0x8000000000000000 ≤ a.toInt → a.toInt ≤ 0x7FFFFFFFFFFFFFFF →
    ∃ v, a.toInt64 = .ok v ∧ v.toInt = a.toInt
  overflow : a.toInt < -0x8000000000000000 ∨ 0x7FFFFFFFFFFFFFFF < a.toInt →
    a.toInt64 = .error .overflow

/-- Every integer is converted exactly but the least one that has a machine integer. -/
theorem converts_iff {a : Integer} (h : a.Canonical) :
    a.Converts ↔ a.toInt ≠ -0x8000000000000000 := by
  constructor
  · rintro ⟨hvalue, -⟩ hleast
    obtain ⟨v, hv, -⟩ := hvalue (by omega) (by omega)
    rw [toInt64_of_le h (by omega)] at hv
    cases hv
  · intro hne
    constructor
    · intro hle hge
      exact ⟨_, toInt64_of_lt h (by omega), Int64.toInt_ofInt_of_le (by omega) (by omega)⟩
    · intro hout
      exact toInt64_of_le h (by omega)

/-! ## There and back -/

theorem toInt64_ofInt64_iff (v : Int64) :
    (ofInt64 v).toInt64 = .ok v ↔ v ≠ Int64.minValue := by
  have hle := Int64.le_toInt v
  have hlt := Int64.toInt_lt v
  have hleast : v = Int64.minValue ↔ v.toInt = -0x8000000000000000 := Int64.toInt_inj.symm
  have hcanonical := canonical_ofInt64 v
  rw [ne_eq, hleast]
  constructor
  · intro hback h
    rw [toInt64_of_le hcanonical (by rw [toInt_ofInt64]; omega)] at hback
    cases hback
  · intro h
    rw [toInt64_of_lt hcanonical (by rw [toInt_ofInt64]; omega), toInt_ofInt64, Int64.ofInt_toInt]

theorem ofInt64_eq_absWord (v : Int64) :
    ofInt64 v = .ofMagnitude (v < 0) (.ofWord (absWord v)) := by
  have hword : v.toInt.natAbs.toUInt64 = absWord v := by
    rw [← toNat_absWord]
    exact UInt64.ofNat_toNat
  rw [ofInt64, hword]

/-- The numeral of an integer is the decimal numeral of its value. -/
theorem toString_eq_repr_toInt {a : Integer} (h : a.Canonical) : a.toString = a.toInt.repr := by
  rw [toString, Int.repr_eq_if]
  split
  · rename_i hge
    rw [text_of_nonneg h hge, Nat.repr_eq_ofList_toDigits,
      show a.toInt.toNat = a.toInt.natAbs by omega]
  · rename_i hlt
    rw [text_of_neg (by omega), Nat.repr_eq_ofList_toDigits,
      show (-a.toInt).toNat = a.toInt.natAbs by omega]
    exact @String.ofList_append ['-'] _

/-- Any numeral of the value of a machine integer gives the integer that it becomes. -/
theorem read_ofInt64 {v : Int64} {n : Numeral} (h : n.value = v.toInt) :
    read (.ofList n.text) = .ok (ofInt64 v) := by
  have hdenotes := n.denotes_integer
  have hinteger : n.integer = ofInt64 v := by
    apply eq_of_toInt_eq hdenotes.canonical (canonical_ofInt64 v)
    rw [hdenotes.value, h, toInt_ofInt64]
  rw [read_numeral String.toList_ofList.symm, hinteger]

namespace Registers

/-- Whatever is in the registers is converted to a machine integer exactly, or refused with an
    overflow if no machine integer has its value, with one exception: the least machine integer
    is refused too. Every machine integer but this one comes back from the integer that it
    becomes, and all become the integer that their decimal numerals give. -/
theorem conversion_exact_iff {regs : Registers} (h : Reachable regs) :
    (∀ a ∈ regs, (a.Converts ↔ a.toInt ≠ -0x8000000000000000) ∧
      (a.toInt = -0x8000000000000000 → a.toInt64 = .error .overflow)) ∧
    (∀ v : Int64, ((ofInt64 v).toInt64 = .ok v ↔ v ≠ Int64.minValue) ∧
      ofInt64 v = .ofMagnitude (v < 0) (.ofWord (absWord v)) ∧
      read v.toInt.repr = .ok (ofInt64 v) ∧
      ∀ n : Numeral, n.value = v.toInt → read (.ofList n.text) = .ok (ofInt64 v)) ∧
    Error.overflow.message = "Integer overflow" := by
  refine ⟨?_, ?_, by decide⟩
  · intro a ha
    have hcanonical := h.canonical a ha
    exact ⟨converts_iff hcanonical, fun hleast => toInt64_of_le hcanonical (by omega)⟩
  · intro v
    have hcanonical := canonical_ofInt64 v
    refine ⟨toInt64_ofInt64_iff v, ofInt64_eq_absWord v, ?_, fun n => read_ofInt64⟩
    rw [← toInt_ofInt64 v, ← toString_eq_repr_toInt hcanonical]
    exact read_toString hcanonical

/-- `-(2 ^ 63 - 1)` is converted, and one less, which is still the value of a machine integer, is
    refused. -/
theorem conversion_exact_iff_least :
    ∃ regs : Registers, Reachable regs ∧ (regs.get 0).toInt = -0x8000000000000000 ∧
      (regs.get 1).toInt = -0x7FFFFFFFFFFFFFFF ∧ ¬ (regs.get 0).Converts ∧
      (regs.get 0).toInt64 = .error .overflow ∧ (regs.get 1).Converts := by
  have hstart : Reachable
      [⟨true, [0x7FFFFFFFFFFFFFFF]⟩, ⟨true, [0x7FFFFFFFFFFFFFFF]⟩, .one] :=
    reachable_of_numerals ["-9223372036854775807", "-9223372036854775807", "1"] (by decide +kernel)
  have hreach := hstart.step (.combine .sub 0 2)
  have hregs : step [⟨true, [0x7FFFFFFFFFFFFFFF]⟩, ⟨true, [0x7FFFFFFFFFFFFFFF]⟩, .one]
      (.combine .sub 0 2) =
      [⟨true, [0x8000000000000000]⟩, ⟨true, [0x7FFFFFFFFFFFFFFF]⟩, .one] := by decide +kernel
  rw [hregs] at hreach
  have hconverts := (conversion_exact_iff hreach).1
  obtain ⟨hleast, hrefused⟩ := hconverts ⟨true, [0x8000000000000000]⟩ (by decide)
  obtain ⟨hnext, -⟩ := hconverts ⟨true, [0x7FFFFFFFFFFFFFFF]⟩ (by decide)
  refine ⟨_, hreach, by decide, by decide, ?_, hrefused (by decide), hnext.2 (by decide)⟩
  intro h
  exact hleast.1 h (by decide)

/-- Not every integer that is the value of a machine integer is converted to it: the least
    machine integer becomes an integer that is refused. -/
theorem least_machine_integer_refused :
    Reachable [ofInt64 Int64.minValue] ∧ (ofInt64 Int64.minValue).toInt = Int64.minValue.toInt ∧
      (ofInt64 Int64.minValue).toInt64 = .error .overflow ∧
      ¬ ∀ regs : Registers, Reachable regs → ∀ a ∈ regs, a.Converts := by
  have hreach : Reachable [ofInt64 Int64.minValue] := by
    apply Reachable.start
    intro a ha
    obtain rfl := List.mem_singleton.1 ha
    exact .machine _
  refine ⟨hreach, toInt_ofInt64 _, by decide, ?_⟩
  intro h
  have hconverts := h _ hreach _ (List.mem_singleton_self _)
  exact (converts_iff (canonical_ofInt64 _)).1 hconverts (by decide)

end Registers

end Integer

end Fractran
