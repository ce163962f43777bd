/-
  The machine that runs a program, step by step.

  A machine is a program of positive fractions with a bound on the steps. A run starts from a
  positive seed; its first step yields the seed and every later one the value that the program
  makes of the last. A run is over when no fraction applies or when the bound is reached, and
  stays over. A machine that was made at debug level notes what it does.
-/
import Fractran.Log

namespace Fractran

/-- A program of positive fractions, the most steps it may take, and whether it notes them. -/
structure Machine where
  program : Program
  bound : Nat
  verbose : Bool

/-- How a run ended. -/
inductive Status where
  | halted
  | boundReached
  deriving DecidableEq

/-- What a step yields. -/
inductive Outcome where
  | produced (value : Integer)
  | ended (status : Status)
  deriving DecidableEq

/-- The value that goes with an outcome: zero unless the step yields one. -/
def Outcome.value : Outcome → Integer
  | .produced v => v
  | .ended _ => .zero

/-- A run in progress. -/
structure Run where
  value : Fraction
  steps : Nat := 0
  /-- The index of the fraction that was applied last. -/
  last : Option Nat := none
  halted : Bool := false
  deriving DecidableEq

/-- A step that was taken: what it yields, the run after it, and what the machine notes. -/
structure Step where
  outcome : Outcome
  run : Run
  notes : List String := []

namespace Machine

/-- The bound of a machine that was given none, the largest machine integer. -/
def unbounded : Nat := 0x7FFFFFFFFFFFFFFF

/-- A machine for a program, if the bound and all fractions are positive. -/
def make (p : Program) (bound : Int) (level : Level) : Except Error Machine :=
  if bound ≤ 0 then .error (.boundNotPositive bound)
  else match p.fractions.find? (!·.isPositive) with
    | some f => .error (.fractionNotPositive f)
    | none => .ok ⟨p, bound.toNat, level == .debug⟩

/-- A run from a positive seed. -/
def start (seed : Integer) : Except Error Run :=
  if seed.isPositive then .ok { value := .ofInteger seed } else .error (.seedNotPositive seed)

/-- What the machine notes when a fraction is applied. -/
def appliedNote (steps : Nat) (a : Program.Application) : String :=
  "Step " ++ steps.repr ++ ": applied " ++ a.fraction.toString ++ " (#" ++ a.index.repr ++ ")"

/-- What is noted when no fraction applies. -/
def haltedNote (steps : Nat) : String := "Halted after " ++ steps.repr ++ " steps"

/-- Takes one step. -/
def step (m : Machine) (r : Run) : Step :=
  if r.halted then ⟨.ended .halted, r, []⟩
  else if m.bound ≤ r.steps then ⟨.ended .boundReached, r, []⟩
  else if r.steps = 0 then ⟨.produced r.value.num, { r with steps := 1 }, []⟩
  else match m.program.next? r.value with
    | some a =>
      ⟨.produced a.product.num, ⟨a.product, r.steps + 1, some a.index, false⟩,
        if m.verbose then [appliedNote (r.steps + 1) a] else []⟩
    | none =>
      ⟨.ended .halted, { r with halted := true },
        if m.verbose then [haltedNote r.steps] else []⟩

end Machine

end Fractran
