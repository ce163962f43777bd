/-
  Registers of integers and the instructions that work on them.

  An instruction that fails names its cause and leaves every register as it was.
-/
import Fractran.Error

namespace Fractran.Integer

/-- The operations on two integers; `assign` takes the second as it is. -/
inductive Operation where
  | add
  | sub
  | mul
  | div
  | mod
  | gcd
  | assign
  deriving DecidableEq

/-- The result of an operation. -/
def Operation.apply : Operation → Integer → Integer → Except Error Integer
  | add, a, b => .ok (a + b)
  | sub, a, b => .ok (a - b)
  | mul, a, b => .ok (a * b)
  | div, a, b => a.div b
  | mod, a, b => a.mod b
  | gcd, a, b => .ok (a.gcd b)
  | assign, _, b => .ok b

/-- An instruction on registers, which are named by their index. -/
inductive Instruction where
  /-- Puts the result of an operation on two registers into the first of them. -/
  | combine (operation : Operation) (target source : Nat)
  /-- Changes the sign of a register. -/
  | negate (target : Nat)
  /-- Reads a numeral into a register. -/
  | load (target : Nat) (text : String)

/-- The contents of the registers. A register that does not exist reads as zero. -/
abbrev Registers := List Integer

namespace Registers

/-- The content of a register. -/
def get (regs : Registers) (i : Nat) : Integer := regs.getD i .zero

/-- The registers after an instruction. -/
def exec (regs : Registers) : Instruction → Except Error Registers
  | .combine op target source => do
    let v ← op.apply (regs.get target) (regs.get source)
    return regs.set target v
  | .negate target => return regs.set target (-regs.get target)
  | .load target text => do
    let v ← Integer.read text
    return regs.set target v

/-- The registers after an instruction, which may fail and then does nothing. -/
def step (regs : Registers) (i : Instruction) : Registers :=
  match regs.exec i with
  | .ok regs' => regs'
  | .error _ => regs

end Registers

end Fractran.Integer
