import Decompiler.Instruction
/-!
# Control flow and conditions on ARM

Every instruction carries a condition; `AL` means that it always takes effect. An instruction whose
first operand is the program counter, or that pops into it, is a jump.
-/

namespace Decompiler.Arm

/-- Whether the instruction compares two operands. -/
def isCmp (i : Insn) : Bool := i.opcode = "CMP"

/-- Whether an operand is the given register. -/
def isReg (op : Operand) (name : String) : Bool := op.register? = some name

/-- Whether the instruction is a jump; it takes the first operand for the one that is written. -/
def isJump (i : Insn) : Except Fault Bool := do
  let op ← i.operand 0
  if isReg op "pc" then return true
  if i.opcode = "POP" then return i.operands.any (isReg · "pc")
  return (i.opcode = "B" || i.opcode = "BX") && !isReg op "lr"

/-- Whether the instruction jumps on a condition. -/
def isCondJump (i : Insn) : Except Fault Bool := do
  return (← isJump i) && i.condition ≠ "AL"

/-- Whether the instruction jumps without a condition. -/
def isUncondJump (i : Insn) : Except Fault Bool := do
  return (← isJump i) && i.condition = "AL"

/-- Whether the instruction returns to the caller. -/
def isRet (i : Insn) : Except Fault Bool := do
  let op ← i.operand 0
  return i.retGroup || (i.opcode = "BX" && isReg op "lr")

/-- Whether the instruction calls a function. -/
def isCall (i : Insn) : Bool := i.callGroup || i.opcode = "BL" || i.opcode = "BLX"

/-- Opposite conditions. -/
def opposites : List (String × String) :=
  [("EQ", "NE"), ("NE", "EQ"), ("GE", "LT"), ("LT", "GE"), ("LE", "GT"), ("GT", "LE"),
   ("HI", "LS"), ("LS", "HI"), ("HS", "LO"), ("LO", "HS"), ("PL", "MI"), ("MI", "PL"),
   ("VS", "VC"), ("VC", "VS")]

/-- How conditions are written in pseudo code. -/
def condSymbols : List (String × String) :=
  [("EQ", "=="), ("NE", "!="), ("GE", ">="), ("LT", "<"), ("LE", "<="), ("GT", ">"),
   ("HI", "(unsigned) >"), ("LS", "(unsigned) <="), ("HS", "(unsigned) >="), ("LO", "(unsigned) <"),
   ("VS", "overflow"), ("VC", "!overflow"), ("PL", ">="), ("MI", "<")]

/-- How operations are written in pseudo code. -/
def opSymbols : List (String × String) :=
  [("EOR", "^"), ("ORR", "|"), ("AND", "&"), ("ADD", "+"), ("MOV", "="), ("SUB", "-"),
    ("CMP", "cmp"),
   ("LDR", "=")]

/-- The sign of a condition. -/
def condSymbol (name : String) : String := (condSymbols.lookup name).getD "UNKNOWN"

/-- The sign of an operation. -/
def opSymbol (name : String) : String := (opSymbols.lookup name).getD "UNKNOWN"

/-- Operations that change a register and set the flags by the result. -/
def assignmentOps : List String := ["EOR", "AND", "ORR"]

/-- Conditions that test a single value, which is written as a comparison with zero. -/
def comparesZero : List String := ["PL", "MI"]

end Decompiler.Arm
