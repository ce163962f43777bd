/-
  Reading integers from numerals.

  A `Numeral` is what may be written for an integer: spaces, a `-` or none, one or more digits,
  spaces. Taking the spaces off a text leaves the sign and the digits of such a numeral or no
  numeral at all (`stripSpaces_text`, `exists_spaces`), so a text gives an integer exactly if it
  is a numeral (`read_numeral`, `numeral_of_ofText?`). The integer has the value of the digits,
  and the same words come out wherever the digits are cut into groups (`foldl_appendGroup`).
-/
import Fractran.Error
import Fractran.Integer.Lemmas
import Fractran.Magnitude.Decimal
import Mathlib.Data.List.Induction

namespace Fractran

/-! ## Groups of digits -/

namespace Magnitude

/-- The number that a group of digits writes. -/
def groupValue (group : List Char) : Word := group.foldl (fun w c => w * 10 + digitValue c) 0

/-- Ten to the number of digits in a group. -/
def groupScale (group : List Char) : Word := group.foldl (fun w _ => w * 10) 1

/-- Writes a group of digits behind a number. -/
def appendGroup (m : Magnitude) (group : List Char) : Magnitude :=
  addWord (mulHalf m (groupScale group)) (groupValue group)

theorem toNat_groupScale {group : List Char} (h : group.length ≤ 9) :
    (groupScale group).toNat = 10 ^ group.length := by
  -- From the end, since each digit multiplies what the digits before it have made.
  induction group using List.reverseRecOn with
  | nil => rfl
  | append_singleton group c ih =>
    rw [List.length_append, List.length_singleton] at h
    have hp : 10 ^ group.length ≤ 10 ^ 9 := Nat.pow_le_pow_right (by decide) (by omega)
    have hstep : groupScale (group ++ [c]) = groupScale group * 10 := by simp [groupScale]
    rw [hstep, UInt64.toNat_mul, ih (by omega), List.length_append, List.length_singleton,
      Nat.pow_succ]
    simp only [UInt64.toNat_ofNat]
    omega

theorem ofDigitChars_lt {group : List Char} (hd : ∀ c ∈ group, c.isDigit = true) :
    Nat.ofDigitChars 10 group 0 < 10 ^ group.length := by
  induction group using List.reverseRecOn with
  | nil => decide
  | append_singleton group c ih =>
    have hc := isDigit_iff.1 (hd c (by simp))
    have hlt := ih fun x hx => hd x (by simp [hx])
    have hz : '0'.toNat = 48 := rfl
    rw [Nat.ofDigitChars_append, Nat.ofDigitChars_cons, Nat.ofDigitChars_nil, List.length_append,
      List.length_singleton, Nat.pow_succ]
    omega

theorem toNat_groupValue {group : List Char} (h : group.length ≤ 9)
    (hd : ∀ c ∈ group, c.isDigit = true) :
    (groupValue group).toNat = Nat.ofDigitChars 10 group 0 := by
  induction group using List.reverseRecOn with
  | nil => rfl
  | append_singleton group c ih =>
    rw [List.length_append, List.length_singleton] at h
    have hc := hd c (by simp)
    have hrest : ∀ x ∈ group, x.isDigit = true := fun x hx => hd x (by simp [hx])
    have hlt := ofDigitChars_lt hrest
    have hp : 10 ^ group.length ≤ 10 ^ 9 := Nat.pow_le_pow_right (by decide) (by omega)
    have hstep : groupValue (group ++ [c]) = groupValue group * 10 + digitValue c := by
      simp [groupValue]
    have hz : '0'.toNat = 48 := rfl
    rw [hstep, UInt64.toNat_add, UInt64.toNat_mul, ih (by omega) hrest, toNat_digitValue hc,
      Nat.ofDigitChars_append, Nat.ofDigitChars_cons, Nat.ofDigitChars_nil]
    rw [isDigit_iff] at hc
    simp only [UInt64.toNat_ofNat]
    omega

theorem toNat_appendGroup (m : Magnitude) {group : List Char} (h : group.length ≤ 9)
    (hd : ∀ c ∈ group, c.isDigit = true) :
    toNat (appendGroup m group) = Nat.ofDigitChars 10 group (toNat m) := by
  have hscale := toNat_groupScale h
  have hp : 10 ^ group.length ≤ 10 ^ 9 := Nat.pow_le_pow_right (by decide) h
  rw [appendGroup, toNat_addWord, toNat_mulHalf _ (by omega), toNat_groupValue h hd, hscale,
    Nat.mul_comm]
  exact Nat.ofDigitChars_eq_ofDigitChars_zero.symm

theorem toNat_foldl_appendGroup (m : Magnitude) {groups : List (List Char)}
    (h : ∀ g ∈ groups, g.length ≤ 9) (hd : ∀ c ∈ groups.flatten, c.isDigit = true) :
    toNat (groups.foldl appendGroup m) = Nat.ofDigitChars 10 groups.flatten (toNat m) := by
  induction groups generalizing m with
  | nil => rfl
  | cons g groups ih =>
    rw [List.forall_mem_cons] at h
    rw [List.flatten_cons, List.forall_mem_append] at hd
    rw [List.foldl_cons, ih _ h.2 hd.2, toNat_appendGroup m h.1 hd.1, List.flatten_cons,
      Nat.ofDigitChars_append]

theorem canonical_foldl_appendGroup {m : Magnitude} (hm : Canonical m)
    (groups : List (List Char)) : Canonical (groups.foldl appendGroup m) := by
  induction groups generalizing m with
  | nil => exact hm
  | cons g groups ih => exact ih (canonical_addWord _ (canonical_mulHalf _ _))

/-- Wherever the digits are cut, into groups of at most nine, they give the same words. -/
theorem foldl_appendGroup {groups : List (List Char)} (h : ∀ g ∈ groups, g.length ≤ 9)
    (hd : ∀ c ∈ groups.flatten, c.isDigit = true) :
    groups.foldl appendGroup [] = ofDigits groups.flatten := by
  apply eq_of_toNat_eq (canonical_foldl_appendGroup canonical_nil groups) (canonical_ofDigits _)
  rw [toNat_foldl_appendGroup [] h hd, toNat_ofDigits hd]
  rfl

end Magnitude

/-! ## Numerals -/

/-- A numeral as it is written: spaces, a `-` or none, one or more digits, spaces. -/
structure Numeral where
  before : Nat
  negative : Bool
  digits : List Char
  after : Nat
  nonempty : digits ≠ []
  isDigit : ∀ c ∈ digits, c.isDigit = true

namespace Numeral

/-- The sign and the digits. -/
def body (n : Numeral) : List Char := if n.negative then '-' :: n.digits else n.digits

def text (n : Numeral) : List Char :=
  List.replicate n.before ' ' ++ n.body ++ List.replicate n.after ' '

/-- The integer that is written. -/
def value (n : Numeral) : Int :=
  if n.negative then -(Nat.ofDigitChars 10 n.digits 0 : Int) else Nat.ofDigitChars 10 n.digits 0

/-- The integer has the value of the numeral in canonical form, and its words are those that
    the digits give in any groups. -/
structure Denotes (n : Numeral) (a : Integer) : Prop where
  canonical : a.Canonical
  value : a.toInt = n.value
  words : ∀ groups : List (List Char), groups.flatten = n.digits → (∀ g ∈ groups, g.length ≤ 9) →
    a.magnitude = groups.foldl Magnitude.appendGroup []

/-- The integer as it is read. -/
def integer (n : Numeral) : Integer := .ofMagnitude n.negative (.ofDigits n.digits)

theorem denotes_integer (n : Numeral) : n.Denotes n.integer where
  canonical := Integer.canonical_ofMagnitude _ (Magnitude.canonical_ofDigits _)
  value := by rw [integer, Integer.toInt_ofMagnitude, Magnitude.toNat_ofDigits n.isDigit, value]
  words := by
    intro groups hflatten hlength
    rw [Magnitude.foldl_appendGroup hlength (by rw [hflatten]; exact n.isDigit), hflatten]
    rfl

theorem body_ne_nil (n : Numeral) : n.body ≠ [] := by
  unfold body
  split
  · exact List.cons_ne_nil _ _
  · exact n.nonempty

theorem space_not_mem_body (n : Numeral) : ' ' ∉ n.body := by
  intro hmem
  unfold body at hmem
  split at hmem
  · rcases List.mem_cons.1 hmem with h | h
    · cases h
    · cases n.isDigit _ h
  · cases n.isDigit _ hmem

end Numeral

/-! ## The spaces around a numeral -/

namespace Integer

theorem dropWhile_space (i : Nat) {text : List Char} (h : text.head? ≠ some ' ') :
    (List.replicate i ' ' ++ text).dropWhile (· == ' ') = text := by
  rw [List.dropWhile_append_of_pos (by simp)]
  cases text with
  | nil => rfl
  | cons c rest => exact List.dropWhile_cons_of_neg (by simpa using h)

theorem exists_replicate_space (text : List Char) :
    ∃ i, text = List.replicate i ' ' ++ text.dropWhile (· == ' ') := by
  induction text with
  | nil => exact ⟨0, rfl⟩
  | cons c rest ih =>
    by_cases hc : c = ' '
    · obtain ⟨i, hi⟩ := ih
      subst hc
      refine ⟨i + 1, ?_⟩
      rw [List.dropWhile_cons_of_pos (by decide), List.replicate_succ, List.cons_append, ← hi]
    · exact ⟨0, by rw [List.dropWhile_cons_of_neg (by simpa using hc)]; rfl⟩

/-- Nothing but spaces is taken off. -/
theorem exists_spaces (text : List Char) :
    ∃ i j, text = List.replicate i ' ' ++ stripSpaces text ++ List.replicate j ' ' := by
  obtain ⟨i, hi⟩ := exists_replicate_space text
  obtain ⟨j, hj⟩ := exists_replicate_space (text.dropWhile (· == ' ')).reverse
  refine ⟨i, j, ?_⟩
  have hback : text.dropWhile (· == ' ') = stripSpaces text ++ List.replicate j ' ' := by
    rw [stripSpaces, ← List.reverse_replicate, ← List.reverse_append, ← hj, List.reverse_reverse]
  rw [List.append_assoc, ← hback, ← hi]

/-- All spaces around a numeral are taken off. -/
theorem stripSpaces_text (n : Numeral) : stripSpaces n.text = n.body := by
  have hfirst : (n.body ++ List.replicate n.after ' ').head? ≠ some ' ' := by
    intro h
    rw [List.head?_append, List.head?_eq_some_head n.body_ne_nil, Option.some_or] at h
    exact n.space_not_mem_body (Option.some.inj h ▸ List.head_mem n.body_ne_nil)
  have hlast : n.body.reverse.head? ≠ some ' ' := by
    intro h
    exact n.space_not_mem_body (List.mem_reverse.1 (List.mem_of_head? h))
  rw [stripSpaces, Numeral.text, List.append_assoc, dropWhile_space _ hfirst, List.reverse_append,
    List.reverse_replicate, dropWhile_space _ hlast, List.reverse_reverse]

/-! ## Reading -/

theorem magnitudeOfText?_eq_some_iff {text : List Char} {m : Magnitude} :
    magnitudeOfText? text = some m ↔
      text ≠ [] ∧ (∀ c ∈ text, c.isDigit = true) ∧ m = .ofDigits text := by
  unfold magnitudeOfText?
  rw [Option.ite_none_right_eq_some, List.all_eq_true, Option.some.injEq, and_assoc,
    eq_comm (a := m)]

theorem read_numeral {text : String} {n : Numeral} (h : n.text = text.toList) :
    read text = .ok n.integer := by
  have hbody : stripSpaces text.toList = n.body := by rw [← h, stripSpaces_text]
  have hdigits := magnitudeOfText?_eq_some_iff.2 ⟨n.nonempty, n.isDigit, rfl⟩
  have hread : ofText? text = some n.integer := by
    unfold ofText?
    rw [hbody, Numeral.body, Numeral.integer]
    cases n.negative with
    | true => simp [hdigits]
    | false =>
      -- the first character is a digit, so it is not taken for a sign
      split
      next rest hrest =>
        have hmem : '-' ∈ n.digits := by simp [show n.digits = '-' :: rest from hrest]
        cases n.isDigit _ hmem
      next => simp [hdigits]
  rw [read, hread]

theorem numeral_of_ofText? {text : String} {a : Integer} (h : ofText? text = some a) :
    ∃ n : Numeral, n.text = text.toList := by
  obtain ⟨i, j, htext⟩ := exists_spaces text.toList
  unfold ofText? at h
  split at h
  next digits hbody =>
    obtain ⟨m, hm, -⟩ := Option.map_eq_some_iff.1 h
    obtain ⟨hne, hd, -⟩ := magnitudeOfText?_eq_some_iff.1 hm
    rw [hbody] at htext
    exact ⟨⟨i, true, digits, j, hne, hd⟩, htext.symm⟩
  next digits _ =>
    obtain ⟨m, hm, -⟩ := Option.map_eq_some_iff.1 h
    obtain ⟨hne, hd, -⟩ := magnitudeOfText?_eq_some_iff.1 hm
    exact ⟨⟨i, false, _, j, hne, hd⟩, htext.symm⟩

theorem numeral_of_read {text : String} {a : Integer} (h : read text = .ok a) :
    ∃ n : Numeral, n.text = text.toList := by
  unfold read at h
  split at h
  next b hb => exact numeral_of_ofText? hb
  next => cases h

/-- A text is read exactly if it is a numeral: spaces, a `-` or none, one or more digits, spaces.
    It then gives the integer that is written in canonical form, with the same words for any
    grouping of the digits. Any other text is quoted as an error. -/
theorem read_exact (text : String) :
    (∀ n : Numeral, n.text = text.toList → ∃ a, read text = .ok a ∧ n.Denotes a) ∧
    ((¬ ∃ n : Numeral, n.text = text.toList) →
      ∃ e, read text = .error e ∧ e = .malformedNumber text ∧
        e.text = "error reading number: '" ++ text ++ "'") := by
  constructor
  · intro n hn
    exact ⟨n.integer, read_numeral hn, n.denotes_integer⟩
  · intro hnone
    refine ⟨.malformedNumber text, ?_, rfl, rfl⟩
    cases hread : ofText? text with
    | none => rw [read, hread]
    | some a => exact absurd (numeral_of_ofText? hread) hnone

/-- Twenty-two digits in three groups give a number of two words. A second sign is no digit. -/
theorem read_exact_two_words :
    read "  -0018446744073709551616 " = .ok ⟨true, [0, 1]⟩ ∧
      ∃ e, read "--1" = .error e ∧ e.text = "error reading number: '--1'" := by
  constructor
  · obtain ⟨a, hread, hdenotes⟩ := (read_exact "  -0018446744073709551616 ").1
      ⟨2, true, "0018446744073709551616".toList, 1, by decide,
        List.all_eq_true.1 (by decide)⟩ (by decide)
    have ha : a = ⟨true, [0, 1]⟩ :=
      eq_of_toInt_eq hdenotes.canonical (by decide)
        (hdenotes.value.trans (by decide +kernel))
    rw [hread, ha]
  · have hnone : ¬ ∃ n : Numeral, n.text = "--1".toList := by
      rintro ⟨n, hn⟩
      obtain ⟨a, hread, -⟩ := (read_exact "--1").1 n hn
      have hrefused : read "--1" = .error (.malformedNumber "--1") := by decide +kernel
      rw [hrefused] at hread
      cases hread
    obtain ⟨e, hread, -, htext⟩ := (read_exact "--1").2 hnone
    exact ⟨e, hread, htext⟩

end Integer

end Fractran
