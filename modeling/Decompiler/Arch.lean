import Decompiler.Arch.X86
import Decompiler.Arch.Arm
import Decompiler.Arch.Mips
/-!
# Architectures

What the analyses need to know of a machine: which instructions jump, call, return or compare, which
condition a jump tests, and how conditions are written. Questions that look at an operand fail on an
instruction that has none.
-/

namespace Decompiler

/-- The supported families of machines. -/
inductive Arch where
  | x86
  | arm
  | mips
  deriving DecidableEq, Repr

namespace Arch

/-- Whether the instruction compares two operands and does nothing else. -/
def isCmp : Arch → Insn → Bool
  | x86, i => X86.isCmp i
  | arm, i => Arm.isCmp i
  | mips, _ => false

def isJump : Arch → Insn → Except Fault Bool
  | x86, i => .ok i.jumpGroup
  | arm, i => Arm.isJump i
  | mips, i => Mips.isJump i

/-- Whether the instruction jumps on a condition. -/
def isCondJump : Arch → Insn → Except Fault Bool
  | x86, i => .ok (X86.isCondJump i)
  | arm, i => Arm.isCondJump i
  | mips, i => .ok (Mips.isCondJump i)

/-- Whether the instruction jumps without a condition. -/
def isUncondJump : Arch → Insn → Except Fault Bool
  | x86, i => .ok (X86.isUncondJump i)
  | arm, i => Arm.isUncondJump i
  | mips, i => .ok (Mips.isUncondJump i)

/-- Whether the instruction returns to the caller. -/
def isRet : Arch → Insn → Except Fault Bool
  | x86, i => .ok i.retGroup
  | arm, i => Arm.isRet i
  | mips, i => Mips.isRet i

/-- Whether the instruction calls a function. -/
def isCall : Arch → Insn → Bool
  | x86, i => i.callGroup
  | arm, i => Arm.isCall i
  | mips, i => Mips.isCall i

/-- The condition that an instruction tests, by name. -/
def condOf : Arch → Insn → String
  | arm, i => i.condition
  | _, i => i.opcode

/-- The opposite of the condition that an instruction tests, if it has one. -/
def invertedCond : Arch → Insn → Option String
  | x86, i => X86.opposites.lookup i.opcode
  | arm, i => Arm.opposites.lookup i.condition
  | mips, i => Mips.opposites.lookup i.opcode

/-- The sign of a condition. -/
def condSymbol (arch : Arch) (cond : Option String) : String :=
  match cond with
  | none => "UNKNOWN"
  | some name =>
    match arch with
    | x86 => X86.symbol name
    | arm => Arm.condSymbol name
    | mips => Mips.condSymbol name

/-- The sign of an operation. -/
def opSymbol : Arch → Insn → String
  | x86, i => X86.symbol i.opcode
  | arm, i => Arm.opSymbol i.opcode
  | mips, i => Mips.opSymbol i.opcode

end Arch

end Decompiler
