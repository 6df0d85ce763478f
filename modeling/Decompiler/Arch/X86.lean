import Decompiler.Instruction
/-!
# Control flow and conditions on x86

The decoder's groups tell jumps, calls and returns apart. Conditions are named by the jump that
tests them.
-/

namespace Decompiler.X86

/-- Whether the instruction compares two operands. -/
def isCmp (i : Insn) : Bool := i.opcode = "CMP"

/-- Whether the instruction jumps without a condition. -/
def isUncondJump (i : Insn) : Bool := i.opcode = "JMP"

/-- Whether the instruction jumps on a condition. -/
def isCondJump (i : Insn) : Bool := i.jumpGroup && i.opcode ≠ "JMP"

/-- The jumps that test opposite conditions. -/
def opposites : List (String × String) :=
  [("JE", "JNE"), ("JNE", "JE"), ("JGE", "JL"), ("JL", "JGE"), ("JLE", "JG"), ("JG", "JLE"),
   ("JNS", "JS"), ("JS", "JNS"), ("JAE", "JB"), ("JB", "JAE"), ("JBE", "JA"), ("JA", "JBE"),
   ("JP", "JNP"), ("JNP", "JP"), ("JO", "JNO"), ("JNO", "JO")]

/-- How operations and conditions are written in pseudo code. -/
def symbols : List (String × String) :=
  [("JE", "=="), ("JNE", "!="),
   ("JGE", ">="), ("JL", "<"), ("JLE", "<="), ("JG", ">"),
   ("JAE", "(unsigned) >="), ("JA", "(unsigned) >"), ("JBE", "(unsigned) <="),
     ("JB", "(unsigned) <"),
   ("JNS", ">"), ("JS", "<"), ("JP", "% 2 =="), ("JNP", "% 2 !="),
   ("JCXZ", "cx =="), ("JECXZ", "ecx =="), ("JRCXZ", "rxc =="), ("JNO", "overflow"),
     ("JO", "!overflow"),
   ("XOR", "^="), ("OR", "|="), ("AND", "&="), ("SAR", ">>="), ("SHR", ">>="), ("SAL", "<<="),
   ("SHL", "<<="), ("IMUL", "*="), ("ADD", "+="), ("MOV", "="), ("MOVSX", "="), ("SUB", "-="),
   ("CMP", "cmp"), ("DEC", "--"), ("INC", "++")]

/-- The sign of an operation or condition. -/
def symbol (name : String) : String := (symbols.lookup name).getD "UNKNOWN"

/-- Operations that change their first operand and set the flags by the result. -/
def assignmentOps : List String := ["XOR", "AND", "OR", "SAR", "SAL", "SHR", "SHL"]

/-- Conditions that test a single value, which is written as a comparison with zero. -/
def comparesZero : List String := ["JNS", "JS", "JP", "JNP", "JCXZ", "JECXZ", "JRCXZ"]

end Decompiler.X86
