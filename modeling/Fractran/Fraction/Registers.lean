/-
  Registers of fractions and the instructions that work on them.
-/
import Fractran.Error

namespace Fractran.Fraction

/-- How a fraction is given: nothing for zero, an integer, or a quotient of two. -/
inductive Literal where
  | zero
  | whole (n : String)
  | quotient (n d : String)

/-- Reads a fraction, the numerator first. -/
def Literal.read : Literal → Except Error Fraction
  | zero => .ok .zero
  | whole n => do
    let n ← Integer.read n
    return .ofInteger n
  | quotient n d => do
    let n ← Integer.read n
    let d ← Integer.read d
    Fraction.make n d

/-- An instruction on registers, which are named by their index. -/
inductive Instruction where
  /-- Multiplies a register by a register. -/
  | multiply (target source : Nat)
  /-- Puts the product of two registers into a register. -/
  | product (target left right : Nat)
  /-- Reads a fraction into a register. -/
  | load (target : Nat) (literal : Literal)

/-- The contents of the registers. A register that does not exist reads as zero. -/
abbrev Registers := List Fraction

namespace Registers

/-- The content of a register. -/
def get (regs : Registers) (i : Nat) : Fraction := regs.getD i .zero

/-- The registers after an instruction. -/
def exec (regs : Registers) : Instruction → Except Error Registers
  | .multiply target source => .ok (regs.set target (regs.get target * regs.get source))
  | .product target left right => .ok (regs.set target (regs.get left * regs.get right))
  | .load target literal => do
    let f ← literal.read
    return regs.set target f

/-- The registers after an instruction, which may fail and then does nothing. -/
def step (regs : Registers) (i : Instruction) : Registers :=
  match regs.exec i with
  | .ok regs' => regs'
  | .error _ => regs

end Registers

end Fractran.Fraction
