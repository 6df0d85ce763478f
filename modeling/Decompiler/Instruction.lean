import Decompiler.Fault
import Decompiler.Slice
/-!
# Machine instructions

A decoded instruction: where it is, its bytes, its operation, its operands, and what the decoder
says about control flow. Operations, conditions and registers go by the names that assembly listings
give them, such as `MOV`, `EQ` and `eax`.
-/

namespace Decompiler

/-- A reference to memory: `segment: [base + index * scale + disp]`. -/
structure MemRef where
  base : Option String
  index : Option String
  segment : Option String
  scale : Int
  disp : Int
  deriving DecidableEq, Repr

/-- The reference of an operand that is not memory. -/
def MemRef.absent : MemRef := ⟨none, none, none, 1, 0⟩

/-- How far an operand is shifted: by a number or by what a register holds. -/
inductive ShiftAmount where
  | count (n : Int)
  | register (name : String)
  deriving DecidableEq, Repr

/-- A shift applied to an operand; `kind` is for example `LSL` or `LSL_REG`. -/
structure Shift where
  kind : String
  amount : ShiftAmount
  deriving DecidableEq, Repr

/-- What an operand denotes. -/
inductive OperandValue where
  /-- A register, with the decoder's number for it. -/
  | register (name : String) (number : Int)
  | immediate (value : Int)
  /-- A binary64 constant, by its bit pattern. -/
  | real (bits : UInt64)
  /-- A constant beyond the range of binary64. -/
  | tooLarge
  | memory (ref : MemRef)
  /-- Any other kind of operand, such as a coprocessor field. -/
  | other
  deriving DecidableEq, Repr

/-- An operand with its width in bytes and its shift. -/
structure Operand where
  value : OperandValue
  size : Int
  shift : Option Shift
  deriving DecidableEq, Repr

namespace Operand

def isRegister (op : Operand) : Bool :=
  match op.value with
  | .register _ _ => true
  | _ => false

/-- Whether the operand is an immediate number. -/
def isImmediate (op : Operand) : Bool :=
  match op.value with
  | .immediate _ => true
  | _ => false

/-- Whether the operand is a memory reference. -/
def isMemory (op : Operand) : Bool :=
  match op.value with
  | .memory _ => true
  | _ => false

/-- The register an operand names. -/
def register? (op : Operand) : Option String :=
  match op.value with
  | .register name _ => some name
  | _ => none

/-- The number an operand carries: an immediate, or the decoder's number of a register. -/
def number (op : Operand) : Int :=
  match op.value with
  | .immediate v => v
  | .register _ n => n
  | _ => 0

/-- The memory reference of an operand, empty for the other kinds. -/
def mem (op : Operand) : MemRef :=
  match op.value with
  | .memory ref => ref
  | _ => MemRef.absent

end Operand

/-- A repetition mark in front of a string instruction. -/
inductive Repetition where
  | rep
  | repne
  deriving DecidableEq, Repr

/-- A decoded instruction. -/
structure Insn where
  addr : Int
  bytes : List UInt8
  /-- The operation, by its listing name in capitals. -/
  opcode : String
  /-- The operation as it is printed. -/
  mnemonic : String
  /-- The operands as they are printed. -/
  opText : String
  operands : List Operand
  jumpGroup : Bool
  callGroup : Bool
  retGroup : Bool
  repetition : Option Repetition
  /-- The condition under which the instruction takes effect, on machines that have one. -/
  condition : String
  setsFlags : Bool
  readsPc : Bool
  deriving DecidableEq, Repr

namespace Insn

/-- The length in bytes. -/
def size (i : Insn) : Int := i.bytes.length

/-- The address right after the instruction. -/
def next (i : Insn) : Int := i.addr + i.size

/-- The instruction in assembly notation. -/
def text (i : Insn) : String := i.mnemonic ++ " " ++ i.opText

/-- The operand at a position; a negative position counts from the last one. -/
def operand (i : Insn) (k : Int) : Except Fault Operand :=
  match position? i.operands k with
  | some op => .ok op
  | none => .error .missingOperand

/-- The target of a jump: its last operand, if that is an immediate. -/
def target? (i : Insn) : Option Int :=
  match i.operands.getLast? with
  | some op => if op.isImmediate then some op.number else none
  | none => none

/-- Whether all operands are one and the same register. -/
def sameRegister (i : Insn) : Bool :=
  match i.operands with
  | [] => false
  | op :: rest => op.isRegister && rest.all (fun o => o.isRegister && o.register? = op.register?)

end Insn

end Decompiler
