import Decompiler.Instruction
/-!
# Control flow and conditions on MIPS

Conditions are named by the branch that tests them. A jump to the return address register is a
return; a jump to any other register is a jump that cannot be followed.
-/

namespace Decompiler.Mips

/-- Branches on a condition. -/
def condJumps : List String := ["BEQ", "BNE", "BGTZ", "BGEZ", "BNEZ", "BEQZ", "BLEZ", "BLTZ"]

/-- Branches without a condition. -/
def uncondJumps : List String := ["B", "J"]

/-- Branches that leave a return address. -/
def linkJumps : List String := ["BAL", "JAL", "JALR", "BLTZAL"]

/-- Whether the instruction jumps on a condition. -/
def isCondJump (i : Insn) : Bool := condJumps.contains i.opcode

/-- Whether the instruction jumps without a condition to a place that is written in it. -/
def isUncondJump (i : Insn) : Bool := uncondJumps.contains i.opcode

/-- Whether the instruction is a jump to the return address. -/
def isRet (i : Insn) : Except Fault Bool := do
  if i.opcode = "JR" then
    return (← i.operand 0).register? = some "ra"
  return false

/-- Whether the instruction is a jump of any kind that is not a call or a return. -/
def isJump (i : Insn) : Except Fault Bool := do
  if isCondJump i || isUncondJump i then return true
  if i.opcode = "JR" then
    return (← i.operand 0).register? ≠ some "ra"
  return false

/-- Whether the instruction calls a function. -/
def isCall (i : Insn) : Bool := linkJumps.contains i.opcode

/-- Branches that test opposite conditions. -/
def opposites : List (String × String) :=
  [("BEQ", "BNE"), ("BNE", "BEQ"), ("BNEZ", "BEQZ"), ("BEQZ", "BNEZ"), ("BGTZ", "BLEZ"),
    ("BLEZ", "BGTZ"),
   ("BGEZ", "BLTZ"), ("BLTZ", "BGEZ")]

/-- How conditions are written in pseudo code. -/
def condSymbols : List (String × String) :=
  [("BEQ", "=="), ("BNE", "!="), ("BNEZ", "!="), ("BEQZ", "=="), ("BGTZ", ">"), ("BLEZ", "<="),
   ("BGEZ", ">="), ("BLTZ", "<")]

/-- How operations are written in pseudo code. -/
def opSymbols : List (String × String) :=
  [("AND", "&"), ("ADD", "+"), ("ADDU", "+"), ("ADDIU", "+"), ("SLL", "<<"), ("SRL", ">>"),
   ("SRA", "arith>>"), ("XOR", "^"), ("XORI", "^"), ("SUB", "-"), ("SUBU", "-")]

/-- The sign of a condition. -/
def condSymbol (name : String) : String := (condSymbols.lookup name).getD "UNKNOWN"

/-- The sign of an operation. -/
def opSymbol (name : String) : String := (opSymbols.lookup name).getD "UNKNOWN"

/-- Conditions that test a single value, which is written as a comparison with zero. -/
def comparesZero : List String := ["BGTZ", "BGEZ", "BNEZ", "BEQZ", "BLEZ", "BLTZ"]

end Decompiler.Mips
