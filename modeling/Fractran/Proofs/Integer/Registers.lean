/-
  What holds of registers of integers after any run of instructions.

  Every instruction keeps all registers canonical, also one that fails, which changes nothing
  (`exec_canonical`, `Reachable.canonical`). So the tests and comparisons, which look at words and
  signs, are exact on every integer that a run can make (`testsExact`, `comparesExact`). An
  instruction fails for the causes listed in `Fails` and no other (`exec_eq_error_iff`).
-/
import Fractran.Integer.Registers
import Fractran.Proofs.Integer.Comparison

namespace Fractran.Integer

/-- The integers that registers may start from. -/
inductive Initial : Integer → Prop where
  | zero : Initial .zero
  | machine (v : Int64) : Initial (.ofInt64 v)
  | numeral {text : String} {a : Integer} (h : Integer.read text = .ok a) : Initial a

/-- All tests of an integer say what holds of the number. Zero is the integer without words. -/
structure TestsExact (a : Integer) : Prop where
  isZero : a.isZero = true ↔ a.toInt = 0
  noWords : a.magnitude = [] ↔ a.toInt = 0
  isOne : a.isOne = true ↔ a.toInt = 1
  sign : a.sign = a.toInt.sign
  isOdd : a.isOdd = true ↔ a.toInt % 2 = 1

/-- All comparisons of two integers say what holds of the numbers. Magnitudes may be compared by
    their word counts first. -/
structure ComparesExact (a b : Integer) : Prop where
  eq : (a == b) = true ↔ a.toInt = b.toInt
  ne : (a != b) = true ↔ a.toInt ≠ b.toInt
  lt : a < b ↔ a.toInt < b.toInt
  gt : a > b ↔ a.toInt > b.toInt
  le : a ≤ b ↔ a.toInt ≤ b.toInt
  ge : a ≥ b ↔ a.toInt ≥ b.toInt
  sized : a.magnitude.compare b.magnitude = a.magnitude.compareSized b.magnitude

theorem Initial.canonical {a : Integer} (h : Initial a) : a.Canonical := by
  cases h with
  | zero => exact canonical_zero
  | machine v => exact canonical_ofInt64 v
  | @numeral text a h =>
    unfold Integer.read at h
    split at h
    · rename_i b hb
      cases h
      exact canonical_of_ofText? hb
    · cases h

theorem testsExact {a : Integer} (h : a.Canonical) : TestsExact a where
  isZero := isZero_iff a
  noWords := (isZero_iff_no_words h).symm.trans (isZero_iff a)
  isOne := isOne_iff h
  sign := sign_toInt a
  isOdd := isOdd_iff a

theorem comparesExact {a b : Integer} (ha : a.Canonical) (hb : b.Canonical) :
    ComparesExact a b where
  eq := by rw [beq_iff_eq, eq_iff_toInt_eq ha hb]
  ne := by rw [bne_iff_ne, ne_eq, eq_iff_toInt_eq ha hb]
  lt := lt_iff_toInt_lt ha hb
  gt := lt_iff_toInt_lt hb ha
  le := le_iff_toInt_le ha hb
  ge := le_iff_toInt_le hb ha
  sized := Magnitude.compare_eq_compareSized ha.1 hb.1

namespace Registers

/-! ## One instruction -/

/-- Every register is canonical. -/
def AllCanonical (regs : Registers) : Prop := ∀ a ∈ regs, a.Canonical

theorem canonical_get {regs : Registers} (h : AllCanonical regs) (i : Nat) :
    (regs.get i).Canonical := by
  unfold get
  by_cases hi : i < regs.length
  · rw [List.getD_eq_getElem?_getD, List.getElem?_eq_getElem hi]
    exact h _ (List.getElem_mem hi)
  · rw [List.getD_eq_getElem?_getD, List.getElem?_eq_none (by omega)]
    exact canonical_zero

theorem allCanonical_set {regs : Registers} (h : AllCanonical regs) (i : Nat) {v : Integer}
    (hv : v.Canonical) : AllCanonical (regs.set i v) := by
  intro a ha
  rcases List.mem_or_eq_of_mem_set ha with ha | rfl
  · exact h a ha
  · exact hv

theorem canonical_div {a b q : Integer} (ha : a.Canonical) (h : a.div b = .ok q) :
    q.Canonical := by
  unfold Integer.div Integer.div? at h
  split at h
  · rename_i q' hq
    split at hq
    · cases hq
    · cases hq
      cases h
      exact canonical_tdiv b ha
  · cases h

theorem canonical_mod {a b r : Integer} (ha : a.Canonical) (h : a.mod b = .ok r) :
    r.Canonical := by
  unfold Integer.mod Integer.mod? at h
  split at h
  · rename_i r' hr
    split at hr
    · cases hr
    · cases hr
      cases h
      exact canonical_tmod b ha
  · cases h

theorem canonical_apply {op : Operation} {a b v : Integer} (ha : a.Canonical) (hb : b.Canonical)
    (h : op.apply a b = .ok v) : v.Canonical := by
  cases op with
  | add => cases h; exact canonical_add ha hb
  | sub => cases h; exact canonical_sub ha hb
  | mul => cases h; exact canonical_mul a b
  | div => exact canonical_div ha h
  | mod => exact canonical_mod ha h
  | gcd => cases h; exact canonical_gcd ha hb
  | assign => cases h; exact hb

theorem exec_canonical {regs regs' : Registers} {i : Instruction} (h : AllCanonical regs)
    (he : regs.exec i = .ok regs') : AllCanonical regs' := by
  cases i with
  | combine op target source =>
    simp only [exec] at he
    cases hv : op.apply (regs.get target) (regs.get source) with
    | error e => rw [hv] at he; cases he
    | ok v =>
      rw [hv] at he
      cases he
      exact allCanonical_set h target
        (canonical_apply (canonical_get h target) (canonical_get h source) hv)
  | negate target =>
    cases he
    exact allCanonical_set h target (canonical_neg (canonical_get h target))
  | load target text =>
    simp only [exec] at he
    cases hv : Integer.read text with
    | error e => rw [hv] at he; cases he
    | ok v =>
      rw [hv] at he
      cases he
      exact allCanonical_set h target (Initial.numeral hv).canonical

/-- The causes for which an instruction fails: a divisor that is zero or a text that is no
    numeral. -/
inductive Fails (regs : Registers) : Instruction → Error → Prop where
  | div {target source : Nat} (h : (regs.get source).toInt = 0) :
      Fails regs (.combine .div target source) .divisionByZero
  | mod {target source : Nat} (h : (regs.get source).toInt = 0) :
      Fails regs (.combine .mod target source) .divisionByZero
  | load {target : Nat} {text : String} (h : Integer.ofText? text = none) :
      Fails regs (.load target text) (.malformedNumber text)

theorem div_eq_error_iff (a b : Integer) (e : Error) :
    a.div b = .error e ↔ b.toInt = 0 ∧ e = .divisionByZero := by
  unfold Integer.div Integer.div?
  by_cases hb : b.isZero = true
  · simp [hb, (isZero_iff b).1 hb, eq_comm]
  · simp [hb, mt (isZero_iff b).2 hb]

theorem mod_eq_error_iff (a b : Integer) (e : Error) :
    a.mod b = .error e ↔ b.toInt = 0 ∧ e = .divisionByZero := by
  unfold Integer.mod Integer.mod?
  by_cases hb : b.isZero = true
  · simp [hb, (isZero_iff b).1 hb, eq_comm]
  · simp [hb, mt (isZero_iff b).2 hb]

theorem read_eq_error_iff (text : String) (e : Error) :
    Integer.read text = .error e ↔ Integer.ofText? text = none ∧ e = .malformedNumber text := by
  unfold Integer.read
  cases Integer.ofText? text with
  | some a => simp
  | none => simp [eq_comm]

theorem bind_pure_eq_error_iff {α β : Type} (x : Except Error α) (f : α → β) (e : Error) :
    (do let v ← x; return f v) = (.error e : Except Error β) ↔ x = .error e := by
  cases x with
  | ok v => constructor <;> (intro h; cases h)
  | error e' => constructor <;> (intro h; cases h; rfl)

theorem exec_eq_error_iff (regs : Registers) (i : Instruction) (e : Error) :
    regs.exec i = .error e ↔ Fails regs i e := by
  constructor
  · intro h
    cases i with
    | combine op target source =>
      simp only [exec, bind_pure_eq_error_iff] at h
      cases op with
      | div => obtain ⟨hz, rfl⟩ := (div_eq_error_iff _ _ _).1 h; exact .div hz
      | mod => obtain ⟨hz, rfl⟩ := (mod_eq_error_iff _ _ _).1 h; exact .mod hz
      | _ => cases h
    | negate target => cases h
    | load target text =>
      simp only [exec, bind_pure_eq_error_iff] at h
      obtain ⟨hn, rfl⟩ := (read_eq_error_iff _ _).1 h
      exact .load hn
  · intro h
    cases h with
    | div hz => exact (bind_pure_eq_error_iff _ _ _).2 ((div_eq_error_iff _ _ _).2 ⟨hz, rfl⟩)
    | mod hz => exact (bind_pure_eq_error_iff _ _ _).2 ((mod_eq_error_iff _ _ _).2 ⟨hz, rfl⟩)
    | load hn => exact (bind_pure_eq_error_iff _ _ _).2 ((read_eq_error_iff _ _).2 ⟨hn, rfl⟩)

theorem step_of_exec_error {regs : Registers} {i : Instruction} {e : Error}
    (h : regs.exec i = .error e) : regs.step i = regs := by
  rw [step, h]

theorem step_canonical {regs : Registers} (i : Instruction) (h : AllCanonical regs) :
    AllCanonical (regs.step i) := by
  unfold step
  split
  · rename_i regs' he
    exact exec_canonical h he
  · exact h

/-! ## Runs of instructions -/

/-- The contents that registers can have: those they may start from, and what any instruction
    makes of them, whether it fails or not. -/
inductive Reachable : Registers → Prop where
  | start {regs : Registers} (h : ∀ a ∈ regs, Initial a) : Reachable regs
  | step {regs : Registers} (i : Instruction) (h : Reachable regs) : Reachable (regs.step i)

theorem Reachable.canonical {regs : Registers} (h : Reachable regs) : AllCanonical regs := by
  induction h with
  | start h => exact fun a ha => (h a ha).canonical
  | step i _ ih => exact step_canonical i ih

/-- Registers may be filled by reading numerals. -/
theorem reachable_of_numerals (texts : List String) {regs : Registers}
    (h : texts.mapM Integer.ofText? = some regs) : Reachable regs := by
  apply Reachable.start
  induction texts generalizing regs with
  | nil =>
    cases h
    exact List.forall_mem_nil _
  | cons text texts ih =>
    rw [List.mapM_cons] at h
    obtain ⟨a, ha, h⟩ := Option.bind_eq_some_iff.1 h
    obtain ⟨rest, hrest, h⟩ := Option.bind_eq_some_iff.1 h
    cases h
    have hread : Integer.read text = .ok a := by rw [Integer.read, ha]
    exact List.forall_mem_cons.2 ⟨.numeral hread, ih hrest⟩

/-- Whatever instructions were run, every register has no zero word at its most significant end
    and no sign without words, a failing instruction (which fails for one of the known causes)
    leaves all registers as they were, and all tests and comparisons are exact. -/
theorem reachable_sound {regs regs' : Registers} (h : Reachable regs) (h' : Reachable regs') :
    (∀ a ∈ regs, a.magnitude.getLast? ≠ some 0 ∧ (a.magnitude = [] → a.negative = false)) ∧
    (∀ i e, regs.exec i = .error e ↔ Fails regs i e) ∧
    (∀ i e, regs.exec i = .error e → regs.step i = regs) ∧
    (∀ a ∈ regs, TestsExact a) ∧
    ∀ a ∈ regs, ∀ b ∈ regs', ComparesExact a b :=
  ⟨h.canonical, exec_eq_error_iff regs, fun _ _ => step_of_exec_error,
    fun a ha => testsExact (h.canonical a ha),
    fun a ha b hb => comparesExact (h.canonical a ha) (h'.canonical b hb)⟩

/-- `-1 - -1` leaves a zero without words or sign, on which every test is exact. -/
theorem reachable_sound_cancelled :
    ∃ regs : Registers, Reachable regs ∧ Integer.zero ∈ regs ∧ TestsExact .zero ∧
      ComparesExact .zero (.ofInt64 (-1)) := by
  have hstart : Reachable [.ofInt64 (-1), .ofInt64 (-1)] := by
    apply Reachable.start
    intro a ha
    obtain rfl : a = .ofInt64 (-1) := by simpa using ha
    exact .machine (-1)
  have hstep := hstart.step (.combine .sub 0 1)
  have hmem : Integer.zero ∈ step [.ofInt64 (-1), .ofInt64 (-1)] (.combine .sub 0 1) := by decide
  obtain ⟨_, _, _, htests, hcompares⟩ := reachable_sound hstep hstart
  exact ⟨_, hstep, hmem, htests _ hmem, hcompares _ hmem _ (by decide)⟩

end Registers

end Fractran.Integer
