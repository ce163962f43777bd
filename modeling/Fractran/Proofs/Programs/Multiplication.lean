/-
  A program that multiplies.

  From `2^a * 3^b` the program `455/33,11/13,1/11,3/7,11/2,1/3` makes `a` rounds. A round takes
  one `2`, adds `b` to the exponent of `5` while it moves the exponent of `3` to `7` (`adds`), and
  moves it back (`restores`). At the end the exponent of `3` is cleared, and `5^(a * b)` is left.

  Main statement: `run_multiplies`.
-/
import Fractran.Proofs.Exponents
import Fractran.Proofs.Machine.Bound
import Fractran.Proofs.Source.Print

namespace Fractran.Multiplication

open Exponents

/-! ## The chart -/

/-- Between two rounds, before an addition of one and in the middle of it. -/
inductive Place where
  | free
  | add
  | adding

def layout : Layout Place where
  larger := [11, 13]
  letters
    | .free => []
    | .add => [11]
    | .adding => [13]

/-- The fractions by their primes. -/
def moves : List Move :=
  [⟨[5, 7, 13], [3, 11]⟩, ⟨[11], [13]⟩, ⟨[], [11]⟩, ⟨[3], [7]⟩, ⟨[11], [2]⟩, ⟨[], [3]⟩]

/-- What the program does next. -/
def next : State Place → Option (State Place)
  | ⟨.add, a, b + 1, c, d⟩ => some ⟨.adding, a, b, c + 1, d + 1⟩
  | ⟨.add, a, 0, c, d⟩ => some ⟨.free, a, 0, c, d⟩
  | ⟨.adding, a, b, c, d⟩ => some ⟨.add, a, b, c, d⟩
  | ⟨.free, a, b, c, d + 1⟩ => some ⟨.free, a, b + 1, c, d⟩
  | ⟨.free, a + 1, b, c, 0⟩ => some ⟨.add, a, b, c, 0⟩
  | ⟨.free, 0, b + 1, c, 0⟩ => some ⟨.free, 0, b, c, 0⟩
  | ⟨.free, 0, 0, _, 0⟩ => none

theorem base_layout : Base layout.base := ⟨by decide, by decide⟩

theorem next?_exponents (s : State Place) :
    next? layout.base moves (layout.exponents s) = (next s).map layout.exponents := by
  fun_cases next s <;> rfl

theorem charts_next : Charts next layout.value (moves.map (Move.rule layout.base)) :=
  layout.charts base_layout next?_exponents

theorem value_start (a b : Nat) : layout.value ⟨.free, a, b, 0, 0⟩ = 2 ^ a * 3 ^ b := by
  simp [Layout.value, Layout.base, Layout.exponents, layout, value, exponents]

theorem value_end (c : Nat) : layout.value ⟨.free, 0, 0, c, 0⟩ = 5 ^ c := by
  simp [Layout.value, Layout.base, Layout.exponents, layout, value, exponents]

/-! ## The loops -/

/-- The chart comes from one state to another in `k` steps. -/
abbrev Reaches (k : Nat) (s s' : State Place) : Prop := Leads next (fun _ => True) k s s'

theorem adds (a b c d : Nat) :
    Reaches (2 * b + 1) ⟨.add, a, b, c, d⟩ ⟨.free, a, 0, c + b, d + b⟩ := by
  induction b generalizing c d with
  | zero => exact .single rfl trivial
  | succ b ih =>
    have hrest := ih (c + 1) (d + 1)
    rw [Nat.add_right_comm c, Nat.add_right_comm d] at hrest
    exact .step rfl trivial (.step rfl trivial hrest)

theorem restores (a b c d : Nat) : Reaches d ⟨.free, a, b, c, d⟩ ⟨.free, a, b + d, c, 0⟩ := by
  induction d generalizing b with
  | zero => exact .refl _
  | succ d ih =>
    have hrest := ih (b + 1)
    rw [Nat.add_right_comm] at hrest
    exact .step rfl trivial hrest

theorem clears (b c : Nat) : Reaches b ⟨.free, 0, b, c, 0⟩ ⟨.free, 0, 0, c, 0⟩ := by
  induction b with
  | zero => exact .refl _
  | succ b ih => exact .step rfl trivial ih

/-- One round: `b` is added once more, and there again. -/
theorem round (a b c : Nat) :
    Reaches (3 * b + 2) ⟨.free, a + 1, b, c, 0⟩ ⟨.free, a, b, c + b, 0⟩ := by
  have hadds := adds a b c 0
  have hrestores := restores a 0 (c + b) (0 + b)
  have hround : Reaches (2 * b + 1 + (0 + b) + 1) ⟨.free, a + 1, b, c, 0⟩
      ⟨.free, a, 0 + (0 + b), c + b, 0⟩ := .step rfl trivial (hadds.trans hrestores)
  rwa [show 2 * b + 1 + (0 + b) + 1 = 3 * b + 2 by omega, Nat.zero_add, Nat.zero_add] at hround

theorem rounds (a b c : Nat) :
    Reaches (a * (3 * b + 2)) ⟨.free, a, b, c, 0⟩ ⟨.free, 0, b, c + a * b, 0⟩ := by
  induction a generalizing c with
  | zero =>
    rw [Nat.zero_mul, Nat.zero_mul]
    exact .refl _
  | succ a ih =>
    have hrounds := (round a b c).trans (ih (c + b))
    rwa [Nat.add_comm (3 * b + 2), ← Nat.succ_mul, Nat.add_assoc c, Nat.add_comm b,
      ← Nat.succ_mul] at hrounds

theorem multiplies (a b : Nat) :
    Reaches (a * (3 * b + 2) + b) ⟨.free, a, b, 0, 0⟩ ⟨.free, 0, 0, a * b, 0⟩ := by
  have hrounds := rounds a b 0
  rw [Nat.zero_add] at hrounds
  exact hrounds.trans (clears b (a * b))

/-! ## The program -/

/-- The program as it is written. -/
def source : String := "455/33,11/13,1/11,3/7,11/2,1/3"

def program : Program :=
  ⟨[⟨.ofInt64 455, .ofInt64 33⟩, ⟨.ofInt64 11, .ofInt64 13⟩, ⟨.ofInt64 1, .ofInt64 11⟩,
    ⟨.ofInt64 3, .ofInt64 7⟩, ⟨.ofInt64 11, .ofInt64 2⟩, ⟨.ofInt64 1, .ofInt64 3⟩]⟩

theorem parse_source : (({} : Source.Parser).parse ⟨source, false⟩).1 = .ok program := by
  rw [Source.Parser.parse_eq]
  decide +kernel

theorem rules_program : program.rules = moves.map (Move.rule layout.base) := by decide +kernel

theorem positive_program : ∀ f ∈ program.fractions, 0 < f.num.toInt := by decide +kernel

theorem reduced_program : program.Reduced := by
  have hparse := parse_source
  rw [Source.Parser.parse_eq, Source.Stream.parse_eq_ok_iff] at hparse
  exact (Source.reduced_of_parse hparse).1

theorem orbit_program (a b : Nat) :
    program.rules.orbit (2 ^ a * 3 ^ b) (a * (3 * b + 2) + b) = some (5 ^ (a * b)) ∧
      program.rules.orbit (2 ^ a * 3 ^ b) (a * (3 * b + 2) + b + 1) = none := by
  have hcharts : Charts next layout.value program.rules := rules_program ▸ charts_next
  have hstart : program.rules.orbit (2 ^ a * 3 ^ b) 0 =
      some (layout.value ⟨.free, a, b, 0, 0⟩) := by rw [value_start]; rfl
  have hend := (multiplies a b).orbit hcharts hstart
  rw [Nat.zero_add] at hend
  refine ⟨by rw [hend, value_end], ?_⟩
  rw [Rules.orbit, hend, Option.bind_some, hcharts]
  rfl

/-- The program multiplies: from `2^a * 3^b` and with a bound that is large enough it halts at
    `5^(a * b)`, after as many steps as its rounds take. -/
theorem run_multiplies :
    ∃ p, (({} : Source.Parser).parse ⟨source, false⟩).1 = .ok p ∧
      ∀ (a b : Nat) (seed : Integer), seed.Canonical → seed.toInt = 2 ^ a * 3 ^ b →
        ∀ (bound : Int) (level : Level), 1 + a * (3 * b + 2) + b < bound →
          ∃ m, Machine.make p bound level = .ok m ∧
            ∀ (s : Session) (mode : Mode), s.machine = m →
              ∃ (lines : List String) (after : Session) (notes : List String),
                s.call (.run mode seed) = ⟨.ok (.finished .halted lines), after, notes⟩ ∧
                after.value.IsNat (5 ^ (a * b)) ∧ after.steps = 1 + a * (3 * b + 2) + b := by
  refine ⟨program, parse_source, ?_⟩
  intro a b seed hc hseed bound level hbound
  obtain ⟨hx, hend⟩ := orbit_program a b
  have hn : seed.toInt = ((2 ^ a * 3 ^ b : Nat) : Int) := by rw [hseed]; norm_cast
  have hpos : 0 < 2 ^ a * 3 ^ b := Nat.mul_pos (Nat.pow_pos (by decide)) (Nat.pow_pos (by decide))
  have hrounds : (0 : Int) ≤ a * (3 * b + 2) := Int.mul_nonneg (by omega) (by omega)
  have hmake : Machine.make program bound level = .ok ⟨program, bound.toNat, level == .debug⟩ :=
    Machine.make_eq_ok_iff.2 ⟨by omega, positive_program, rfl⟩
  refine ⟨_, hmake, ?_⟩
  intro s mode hs
  obtain ⟨lines, after, notes, hcall, hvalue, hsteps⟩ :=
    Session.call_run_of_end reduced_program (hs ▸ hmake) hc hn hpos mode hx hend
      (by push_cast; omega)
  refine ⟨lines, after, notes, hcall, hvalue, ?_⟩
  rw [hsteps, Nat.add_comm _ 1, Nat.add_assoc]

/-- Twice three: from `108` the program halts at `15625` after `26` steps. -/
theorem run_multiplies_two_three :
    ∃ p m after lines notes,
      (({} : Source.Parser).parse ⟨source, false⟩).1 = .ok p ∧
      Machine.make p 100 .info = .ok m ∧
      (Session.ofMachine m).call (.run .values (.ofInt64 108)) =
        ⟨.ok (.finished .halted lines), after, notes⟩ ∧
      after.value.IsNat 15625 ∧ after.steps = 26 := by
  obtain ⟨p, hparse, hrun⟩ := run_multiplies
  obtain ⟨m, hm, hcall⟩ := hrun 2 3 (.ofInt64 108) (Integer.canonical_ofInt64 108)
    (by decide +kernel) 100 .info (by decide)
  obtain ⟨lines, after, notes, h⟩ := hcall (Session.ofMachine m) .values rfl
  exact ⟨p, m, after, lines, notes, hparse, hm, h⟩

end Fractran.Multiplication
