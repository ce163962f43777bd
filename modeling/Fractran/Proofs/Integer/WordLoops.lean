/-
  The loops over the words of a magnitude, one word at a time.

  A loop brings a carry to each word, leaves a word there and takes a carry along; `rounds` lists
  what happens at every word. One round is exact if the carry that enters is in its range
  (`multiplies`, `divides`, `adds`), and it hands on a carry in that range, so every round is
  exact, whatever the words are and however many (`exact_of_getElem?`). A multiplication or an
  addition has at each word stored the lower words of the exact result and carries the rest
  (`Ripples.toNat_carryOut`); a division goes from the most significant word down and carries the
  remainder of the words above (`divLoop`).
-/
import Fractran.Magnitude.Decimal
import Fractran.Proofs.Integer.Sum

namespace Fractran

/-! ## One round -/

/-- One round of a loop over words: the word and the carry that it meets, the word that it stores
    and the carry that leaves. -/
structure Round where
  word : Word
  entering : Word
  stored : Word
  leaving : Word

namespace Word

/-- The step of a multiplication by `n`. -/
def mulStep (n w carry : Word) : Word × Word := mulCarry w n carry

/-- The step of a division by `n`. -/
def divStep (n w r : Word) : Word × Word := divCarry r w n

/-- The remainder with the high half of the next word behind it. -/
def upperPart (r w : Word) : Word := (r <<< 32) + high w

/-- What then remains, with the low half behind it. -/
def lowerPart (r w n : Word) : Word := ((upperPart r w % n) <<< 32) + low w

end Word

open Word

namespace Round

/-- A round of a multiplication by `n`: no product and no sum on the way leaves 64 bits, and the
    stored word and the carry are the two parts of the exact result. -/
structure Multiplies (n : Word) (r : Round) : Prop where
  entering_lt : r.entering.toNat < 0x100000000
  lowProduct : (low r.word * n).toNat = (low r.word).toNat * n.toNat
  highProduct : (high r.word * n).toNat = (high r.word).toNat * n.toNat
  lowSum : (low r.word * n).toNat + r.entering.toNat ≤ 0xFFFFFFFFFFFFFFFF
  highSum : (high r.word * n).toNat + ((low r.word * n + r.entering) >>> 32).toNat ≤
    0xFFFFFFFFFFFFFFFF
  step : (r.stored, r.leaving) = mulStep n r.word r.entering
  stored : r.stored.toNat = (r.word.toNat * n.toNat + r.entering.toNat) % 0x10000000000000000
  leaving : r.leaving.toNat = (r.word.toNat * n.toNat + r.entering.toNat) / 0x10000000000000000

/-- A round of a division by `n`: the divisor is not zero, the remainder stays below it at each
    half, no shift and no sum leaves 64 bits, and the partial quotients are halves. -/
structure Divides (n : Word) (r : Round) : Prop where
  divisor : n ≠ 0
  entering_lt : r.entering.toNat < n.toNat
  upper : (upperPart r.entering r.word).toNat =
    r.entering.toNat * 0x100000000 + (high r.word).toNat
  upperQuotient_lt : (upperPart r.entering r.word / n).toNat < 0x100000000
  upperRemainder_lt : (upperPart r.entering r.word % n).toNat < n.toNat
  lower : (lowerPart r.entering r.word n).toNat =
    (upperPart r.entering r.word % n).toNat * 0x100000000 + (low r.word).toNat
  lowerQuotient_lt : (lowerPart r.entering r.word n / n).toNat < 0x100000000
  leaving_lt : r.leaving.toNat < n.toNat
  step : (r.stored, r.leaving) = divStep n r.word r.entering
  joined : r.stored.toNat = (upperPart r.entering r.word / n).toNat * 0x100000000 +
    (lowerPart r.entering r.word n / n).toNat
  value : r.stored.toNat * n.toNat + r.leaving.toNat =
    r.entering.toNat * 0x10000000000000000 + r.word.toNat

/-- A round of an addition: the carry out is zero or one and the true one. Where nothing enters,
    nothing changes, so the loop may stop there. -/
structure Adds (r : Round) : Prop where
  leaving_le : r.leaving.toNat ≤ 1
  step : (r.stored, r.leaving) = addStep r.word r.entering
  stored : r.stored.toNat = (r.word.toNat + r.entering.toNat) % 0x10000000000000000
  leaving : r.leaving.toNat = (r.word.toNat + r.entering.toNat) / 0x10000000000000000
  still : r.entering = 0 → r.stored = r.word ∧ r.leaving = 0

end Round

namespace Word

theorem toNat_half_mul {h n : Word} (hh : h.toNat < 0x100000000) (hn : n.toNat < 0x100000000) :
    (h * n).toNat = h.toNat * n.toNat := by
  have hle := half_mul_lt hh hn
  rw [UInt64.toNat_mul, Nat.mod_eq_of_lt (by omega)]

/-- The round that multiplies `w` by `n` is exact for a carry below `2 ^ 32`. -/
theorem multiplies (w : Word) {n carry : Word} (hn : n.toNat < 0x100000000)
    (hc : carry.toNat < 0x100000000) :
    Round.Multiplies n ⟨w, carry, (mulStep n w carry).1, (mulStep n w carry).2⟩ := by
  have hlow := toNat_half_mul (toNat_low_lt w) hn
  have hhigh := toNat_half_mul (toNat_high_lt w) hn
  have hlow_le := half_mul_lt (toNat_low_lt w) hn
  have hhigh_le := half_mul_lt (toNat_high_lt w) hn
  have hvalue := mulCarry_value w hn hc
  have hdigit := (mulCarry w n carry).1.toNat_lt
  refine ⟨hc, hlow, hhigh, ?_, ?_, rfl, ?_, ?_⟩
  · show (low w * n).toNat + carry.toNat ≤ _
    omega
  · show (high w * n).toNat + ((low w * n + carry) >>> 32).toNat ≤ _
    have hshift := toNat_high_lt (low w * n + carry)
    rw [← high]
    omega
  · show (mulCarry w n carry).1.toNat = (w.toNat * n.toNat + carry.toNat) % _
    omega
  · show (mulCarry w n carry).2.toNat = (w.toNat * n.toNat + carry.toNat) / _
    omega

theorem remainder_lt (w : Word) {n : Word} (hn : 0 < n.toNat) : (w % n).toNat < n.toNat := by
  rw [UInt64.toNat_mod]
  exact Nat.mod_lt _ hn

/-- The round that divides by `n` is exact behind a remainder below `n`. -/
theorem divides (w : Word) {n r : Word} (hn : n.toNat < 0x100000000) (hr : r.toNat < n.toNat) :
    Round.Divides n ⟨w, r, (divStep n w r).1, (divStep n w r).2⟩ := by
  have hpos : 0 < n.toNat := by omega
  have hbetween : (upperPart r w % n).toNat < n.toNat := remainder_lt _ hpos
  have hq : (upperPart r w / n).toNat < 0x100000000 :=
    toNat_half_quotient_lt hn hr (toNat_high_lt w)
  have hp : (lowerPart r w n / n).toNat < 0x100000000 :=
    toNat_half_quotient_lt hn hbetween (toNat_low_lt w)
  refine ⟨?_, hr, toNat_half_step hn hr (toNat_high_lt w), hq, hbetween,
    toNat_half_step hn hbetween (toNat_low_lt w), hp, divCarry_rem_lt r w hpos, rfl,
    toNat_join_halves hq hp, divCarry_value w hn hr⟩
  rintro rfl
  exact absurd hpos (Nat.lt_irrefl 0)

/-- The round that adds a carry to a word is exact. -/
theorem adds (w n : Word) : Round.Adds ⟨w, n, (addStep w n).1, (addStep w n).2⟩ := by
  have hw := w.toNat_lt
  have hn := n.toNat_lt
  have hvalue := addStep_value w n
  have hdigit := (addStep w n).1.toNat_lt
  refine ⟨?_, rfl, ?_, ?_, ?_⟩
  · show (addStep w n).2.toNat ≤ 1
    omega
  · show (addStep w n).1.toNat = (w.toNat + n.toNat) % _
    omega
  · show (addStep w n).2.toNat = (w.toNat + n.toNat) / _
    omega
  · intro h0
    obtain rfl : n = 0 := h0
    exact ⟨congrArg Prod.fst (addStep_zero w), congrArg Prod.snd (addStep_zero w)⟩

end Word

namespace Magnitude

/-! ## All rounds of a loop -/

/-- The rounds of a loop over words that makes a word and a carry of a word and a carry. -/
def rounds (step : Word → Word → Word × Word) : Magnitude → Word → List Round
  | [], _ => []
  | w :: ws, carry =>
    ⟨w, carry, (step w carry).1, (step w carry).2⟩ :: rounds step ws (step w carry).2

/-- The carry behind all words. -/
def carryOut (step : Word → Word → Word × Word) (m : Magnitude) (carry : Word) : Word :=
  m.foldl (fun c w => (step w c).2) carry

/-- The words that the rounds store. -/
def storedWords (rs : List Round) : Magnitude := rs.map Round.stored

section Loop

variable {step : Word → Word → Word × Word}

theorem length_rounds (m : Magnitude) (carry : Word) : (rounds step m carry).length = m.length := by
  induction m generalizing carry with
  | nil => rfl
  | cons w ws ih => rw [rounds, List.length_cons, ih, List.length_cons]

theorem storedWords_append (rs ss : List Round) :
    storedWords (rs ++ ss) = storedWords rs ++ storedWords ss := List.map_append

theorem carryOut_append (xs ys : Magnitude) (carry : Word) :
    carryOut step (xs ++ ys) carry = carryOut step ys (carryOut step xs carry) :=
  List.foldl_append

theorem rounds_append (xs ys : Magnitude) (carry : Word) :
    rounds step (xs ++ ys) carry =
      rounds step xs carry ++ rounds step ys (carryOut step xs carry) := by
  induction xs generalizing carry with
  | nil => rfl
  | cons w ws ih =>
    rw [List.cons_append, rounds, ih, rounds, List.cons_append]
    rfl

/-- A round meets the next word and the carry behind the words before it. -/
theorem round_of_getElem? {m : Magnitude} {carry : Word} {i : Nat} {r : Round}
    (h : (rounds step m carry)[i]? = some r) :
    m[i]? = some r.word ∧ r.entering = carryOut step (m.take i) carry ∧
      r.leaving = carryOut step (m.take (i + 1)) carry := by
  induction m generalizing carry i with
  | nil => cases h
  | cons w ws ih =>
    cases i with
    | zero =>
      obtain rfl := Option.some.inj h
      exact ⟨rfl, rfl, rfl⟩
    | succ i => exact ih h

/-- If a round is exact for carries in a range and keeps the range, then all rounds of a loop that
    starts in the range are exact. -/
theorem exact_of_getElem? {Carry : Word → Prop} {Exact : Round → Prop}
    (hkeeps : ∀ w c, Carry c → Carry (step w c).2)
    (hexact : ∀ w c, Carry c → Exact ⟨w, c, (step w c).1, (step w c).2⟩)
    {m : Magnitude} {carry : Word} {i : Nat} {r : Round}
    (h : (rounds step m carry)[i]? = some r) (hc : Carry carry) : Exact r := by
  induction m generalizing carry i with
  | nil => cases h
  | cons w ws ih =>
    cases i with
    | zero =>
      obtain rfl := Option.some.inj h
      exact hexact w carry hc
    | succ i => exact ih h (hkeeps w carry hc)

/-- For carries in a range that it keeps, a step makes up `w * k` and the carry that enters. -/
structure Ripples (step : Word → Word → Word × Word) (k : Nat) (Carry : Word → Prop) : Prop where
  keeps : ∀ w c, Carry c → Carry (step w c).2
  value : ∀ w c, Carry c →
    (step w c).1.toNat + 0x10000000000000000 * (step w c).2.toNat = w.toNat * k + c.toNat

variable {k : Nat} {Carry : Word → Prop} {carry : Word}

/-- The stored words and the carry behind them make up `m * k` and the first carry. -/
theorem Ripples.toNat_storedWords (h : Ripples step k Carry) (m : Magnitude) (hc : Carry carry) :
    toNat (storedWords (rounds step m carry)) +
        (carryOut step m carry).toNat <<< (64 * m.length) = toNat m * k + carry.toNat := by
  induction m generalizing carry with
  | nil => simp [rounds, storedWords, carryOut]
  | cons w ws ih =>
    have hrest := ih (h.keeps w carry hc)
    have hround := h.value w carry hc
    show (step w carry).1.toNat + 0x10000000000000000 *
        toNat (storedWords (rounds step ws (step w carry).2)) +
      (carryOut step ws (step w carry).2).toNat <<< (64 * (ws.length + 1)) = _
    rw [Nat.mul_succ, Nat.shiftLeft_add, Nat.shiftLeft_eq _ 64, toNat_cons, Nat.add_mul,
      Nat.mul_assoc]
    omega

/-- The carry is what the exact result of the words so far has above them. -/
theorem Ripples.toNat_carryOut (h : Ripples step k Carry) (m : Magnitude) (hc : Carry carry) :
    (carryOut step m carry).toNat = (toNat m * k + carry.toNat) >>> (64 * m.length) := by
  have hlt := toNat_lt (storedWords (rounds step m carry))
  rw [storedWords, List.length_map, length_rounds, ← storedWords, Nat.one_shiftLeft] at hlt
  rw [← h.toNat_storedWords m hc, Nat.shiftRight_eq_div_pow, Nat.shiftLeft_eq,
    Nat.add_mul_div_right _ _ (Nat.two_pow_pos _), Nat.div_eq_of_lt hlt, Nat.zero_add]

theorem Ripples.toNat_carryOut_take (h : Ripples step k Carry) {m : Magnitude} {i : Nat}
    (hi : i ≤ m.length) (hc : Carry carry) :
    (carryOut step (m.take i) carry).toNat =
      (toNat (m.take i) * k + carry.toNat) >>> (64 * i) := by
  rw [h.toNat_carryOut _ hc, List.length_take_of_le hi]

end Loop

/-! ## Multiplication -/

/-- The multiplication of `m` by `n`: every round is exact, and the carry into a word is what the
    product of the words below it has above them. -/
structure MulLoop (m : Magnitude) (n : Word) : Prop where
  every : ∀ (i : Nat) (r : Round), (rounds (mulStep n) m 0)[i]? = some r →
    m[i]? = some r.word ∧ r.Multiplies n
  carry : ∀ (i : Nat) (r : Round), (rounds (mulStep n) m 0)[i]? = some r →
    r.entering.toNat = (toNat (m.take i) * n.toNat) >>> (64 * i)
  result : mulHalf m n =
    trim (storedWords (rounds (mulStep n) m 0) ++ ofWord (carryOut (mulStep n) m 0))

theorem ripples_mulStep {n : Word} (hn : n.toNat < 0x100000000) :
    Ripples (mulStep n) n.toNat (fun c => c.toNat < 0x100000000) where
  keeps := fun w c _ => mulCarry_carry_lt w n c
  value := fun w _ hc => mulCarry_value w hn hc

theorem mulWith_eq (m : Magnitude) (n carry : Word) :
    mulWith n m carry =
      storedWords (rounds (mulStep n) m carry) ++ ofWord (carryOut (mulStep n) m carry) := by
  induction m generalizing carry with
  | nil => rfl
  | cons w ws ih =>
    rw [mulWith, ih]
    rfl

theorem mulLoop (m : Magnitude) {n : Word} (hn : n.toNat < 0x100000000) : MulLoop m n where
  every := by
    intro i r hr
    have hexact := exact_of_getElem? (ripples_mulStep hn).keeps
      (fun w _ hc => multiplies w hn hc) hr (by decide)
    exact ⟨(round_of_getElem? hr).1, hexact⟩
  carry := by
    intro i r hr
    obtain ⟨hword, hentering, -⟩ := round_of_getElem? hr
    have hi := (List.getElem?_eq_some_iff.1 hword).1
    rw [hentering, (ripples_mulStep hn).toNat_carryOut_take (by omega) (by decide)]
    rfl
  result := by rw [mulHalf, mulWith_eq]

/-! ## Division -/

/-- The division of `m` by `n` from the most significant word down: every round is exact, and the
    remainder that it brings to a word is the remainder of the words above. -/
structure DivLoop (m : Magnitude) (n : Word) : Prop where
  every : ∀ (i : Nat) (r : Round), (rounds (divStep n) m.reverse 0)[i]? = some r →
    m.reverse[i]? = some r.word ∧ r.Divides n
  remainder : ∀ (i : Nat) (r : Round), (rounds (divStep n) m.reverse 0)[i]? = some r →
    r.entering.toNat = toNat (m.drop (m.length - i)) % n.toNat
  result : divHalf m n =
    (trim (storedWords (rounds (divStep n) m.reverse 0)).reverse, carryOut (divStep n) m.reverse 0)

theorem divWith_eq (m : Magnitude) (n : Word) :
    divWith n m =
      ((storedWords (rounds (divStep n) m.reverse 0)).reverse,
        carryOut (divStep n) m.reverse 0) := by
  induction m with
  | nil => rfl
  | cons w ws ih =>
    rw [divWith, ih, List.reverse_cons, rounds_append, storedWords_append, List.reverse_append,
      carryOut_append]
    rfl

theorem divLoop (m : Magnitude) {n : Word} (h0 : 0 < n.toNat) (hn : n.toNat < 0x100000000) :
    DivLoop m n where
  every := by
    intro i r hr
    have hkeeps : ∀ w r : Word, r.toNat < n.toNat → (divStep n w r).2.toNat < n.toNat :=
      fun w r _ => divCarry_rem_lt r w h0
    have hexact := exact_of_getElem? hkeeps (fun w _ hc => divides w hn hc) hr h0
    exact ⟨(round_of_getElem? hr).1, hexact⟩
  remainder := by
    intro i r hr
    rw [(round_of_getElem? hr).2.1, List.take_reverse]
    have hrest := (divHalf_value (m.drop (m.length - i)) h0 hn).2
    rw [divHalf, divWith_eq] at hrest
    exact hrest
  result := by rw [divHalf, divWith_eq]

/-! ## Addition -/

/-- The addition of `n` to `m`: every round is exact, and the carry out of a word is what the sum
    of the words up to it has above them. -/
structure AddLoop (m : Magnitude) (n : Word) : Prop where
  every : ∀ (i : Nat) (r : Round), (rounds addStep m n)[i]? = some r → m[i]? = some r.word ∧ r.Adds
  carry : ∀ (i : Nat) (r : Round), (rounds addStep m n)[i]? = some r →
    r.leaving.toNat = (toNat (m.take (i + 1)) + n.toNat) >>> (64 * (i + 1))
  result : addWord m n = storedWords (rounds addStep m n) ++ ofWord (carryOut addStep m n)

theorem ripples_addStep : Ripples addStep 1 (fun _ => True) where
  keeps := fun _ _ _ => trivial
  value := fun w c _ => by rw [addStep_value, Nat.mul_one]

theorem addWord_eq (m : Magnitude) (n : Word) :
    addWord m n = storedWords (rounds addStep m n) ++ ofWord (carryOut addStep m n) := by
  induction m generalizing n with
  | nil => rfl
  | cons w ws ih =>
    rw [addWord_cons, ih]
    rfl

theorem addLoop (m : Magnitude) (n : Word) : AddLoop m n where
  every := by
    intro i r hr
    have hexact := exact_of_getElem? ripples_addStep.keeps (fun w c _ => adds w c) hr trivial
    exact ⟨(round_of_getElem? hr).1, hexact⟩
  carry := by
    intro i r hr
    obtain ⟨hword, -, hleaving⟩ := round_of_getElem? hr
    have hi := (List.getElem?_eq_some_iff.1 hword).1
    rw [hleaving, ripples_addStep.toNat_carryOut_take (by omega) trivial, Nat.mul_one]
  result := addWord_eq m n

/-- Reading multiplies by the scale of the open group, or by ten times this scale when one more
    digit fills the group: never by more than ten to the ninth. -/
theorem scale_le {ds : List Char} (h : ∀ c ∈ ds, c.isDigit = true) :
    (ds.foldl Reading.push {}).scale.toNat ≤ 1000000000 ∧
      ((ds.foldl Reading.push {}).scale * 10).toNat ≤ 1000000000 := by
  have hstart : Reading.Open {} 0 := ⟨by omega, rfl, by decide⟩
  obtain ⟨⟨k, hk, hscale, -⟩, -⟩ := Reading.foldl_push hstart h
  have hle : (ds.foldl Reading.push {}).scale.toNat ≤ 100000000 := hscale ▸ pow_ten_le hk
  have hten : UInt64.toNat 10 = 10 := rfl
  rw [UInt64.toNat_mul, hten, Nat.mod_eq_of_lt (by omega)]
  omega

/-- No loop over words loses a bit, whatever the words are. Multiplying by `n < 2 ^ 32`, every
    round gets a carry below `2 ^ 32`, and none of its sums leaves 64 bits. Dividing by
    `0 < n < 2 ^ 32`, the remainder stays below `n` at every half and both partial quotients are
    halves of the word that is stored. Adding a word, the carry is zero or one and the true one.
    The multipliers in use are halves of words and powers of ten up to the ninth. -/
theorem word_loops_exact (m : Magnitude) (n : Word) :
    (n.toNat < 0x100000000 → MulLoop m n) ∧
    (0 < n.toNat → n.toNat < 0x100000000 → DivLoop m n) ∧
    AddLoop m n ∧
    (∀ half ∈ halves m, half.toNat < 0x100000000) ∧
    ∀ ds : List Char, (∀ c ∈ ds, c.isDigit = true) →
      (ds.foldl Reading.push {}).scale.toNat ≤ 1000000000 ∧
      ((ds.foldl Reading.push {}).scale * 10).toNat ≤ 1000000000 :=
  ⟨mulLoop m, divLoop m, addLoop m n, halves_lt m, fun _ => scale_le⟩

/-- Full words and the largest multiplier: the second round gets the largest carry, and its lower
    sum stays `2 ^ 32` below the limit. -/
theorem word_loops_exact_full_words :
    ∃ r : Round, (rounds (mulStep 0xFFFFFFFF) [0xFFFFFFFFFFFFFFFF, 0xFFFFFFFFFFFFFFFF] 0)[1]? =
        some r ∧ r.Multiplies 0xFFFFFFFF ∧ r.entering.toNat = 0xFFFFFFFE ∧
      (low r.word * 0xFFFFFFFF).toNat + r.entering.toNat = 0xFFFFFFFEFFFFFFFF ∧
      DivLoop [0xFFFFFFFFFFFFFFFF, 0xFFFFFFFFFFFFFFFF] 0xFFFFFFFF ∧
      AddLoop [0xFFFFFFFFFFFFFFFF, 0xFFFFFFFFFFFFFFFF] 0xFFFFFFFF := by
  obtain ⟨hmul, hdiv, hadd, -⟩ :=
    word_loops_exact [0xFFFFFFFFFFFFFFFF, 0xFFFFFFFFFFFFFFFF] 0xFFFFFFFF
  have hmul := hmul (by decide)
  exact ⟨_, rfl, (hmul.every 1 _ rfl).2, hmul.carry 1 _ rfl, by decide,
    hdiv (by decide) (by decide), hadd⟩

end Magnitude

end Fractran
