import Decompiler.Print.Operand
/-!
# Pseudo code of ARM instructions
-/

namespace Decompiler.Arm

open Listing Scene

/-- The signs of shifts. -/
def shiftSigns : List (String × String) :=
  [("LSL", "<<"), ("LSR", ">>"), ("ROR", "rot>>"), ("ASR", "arith>>"), ("RRX", "rrx>>"),
   ("LSL_REG", "<<"), ("LSR_REG", ">>"), ("ROR_REG", "rot>>"), ("ASR_REG", "arith>>"),
     ("RRX_REG", "rrx>>")]

/-- Shifts by a number of bits that is fixed. -/
def fixedShifts : List String := ["LSL", "LSR", "ROR", "ASR"]

/-- Writes a shift and closes the bracket around the shifted operand. -/
def shift (sh : Shift) : Listing Unit :=
  match shiftSigns.lookup sh.kind with
  | none => done ()
  | some sign =>
    match sh.amount with
    | .count n => write (" " ++ sign ++ " " ++ toString n ++ ")")
    | .register name =>
      if fixedShifts.contains sh.kind then fail .notAnInteger
      else write (" " ++ sign ++ " " ++ name ++ ")")

/-- Writes the shift of an operand, if it has one. -/
def shiftOf (op : Operand) : Listing Unit :=
  match op.shift with
  | some sh => shift sh
  | none => done ()

/-- Writes the registers and the displacement of a memory reference. There are no segments, so a
reference needs a base register. -/
def reference (s : Scene) (op : Operand) (m : MemRef) : Listing Unit := do
  match m.base with
  | some r => write r
  | none => fail .noSegment
  match m.index with
  | some r =>
    write " + "
    Scene.index r m.scale
    shiftOf op
  | none => pure ()
  s.displacement m.disp true

/-- Memory at a fixed distance from the program counter. -/
def pcRelative? (s : Scene) (i : Insn) (m : MemRef) : Option String :=
  if m.base = some "pc" && m.disp ≠ 0 && m.index = none then
    some ("*(" ++ s.nameOrHex (i.next + m.disp) ++ ")")
  else none

/-- Writes an operand. Memory is written as what is stored there, or with `deref` off as its
address. -/
def operand (s : Scene) (i : Insn) (k : Int) (inHex deref : Bool) : Listing (Option Bool) := do
  let op ← ask (i.operand k)
  only op.shift.isSome (write "(")
  match op.value with
  | .immediate n => some <$> s.immediate n inHex false
  | .register name _ => do
    write (if name = "pc" && i.readsPc then Text.hex i.addr else name)
    shiftOf op
    return some false
  | .real bits => do
    write (Text.fixedBinary 6 bits)
    shiftOf op
    return some false
  | .memory m => do
    match pcRelative? s i m with
    | some text => write text
    | none =>
      only deref (write "*(")
      reference s op m
      only deref (write ")")
    return some true
  | .tooLarge => fail .realRange
  | .other => return none

/-- Writes an operand as a value. -/
def value (s : Scene) (i : Insn) (k : Int) : Listing Unit := do
  let _ ← operand s i k false true

/-- Writes a condition, together with the comparison that it tests if that is known. -/
def condition (s : Scene) (cond : Option String) (fused : Option Insn) : Listing Unit := do
  let sign := Arch.condSymbol .arm cond
  let zero := cond.any (comparesZero.contains ·)
  match fused with
  | none =>
    write sign
    only zero (write " 0")
  | some i =>
    let assigns := assignmentOps.contains i.opcode
    only assigns (write "(")
    write "("
    value s i 0
    write " "
    write sign
    write " "
    value s i 1
    only (i.opcode ≠ "CMP" && (zero || assigns)) (write " 0")
    write ")"

/-! ## Instructions -/

/-- What the loads load. -/
def loads : List (String × String) :=
  [("LDRB", "unsigned byte"), ("LDRH", "unsigned short"), ("LDR", "unsigned word"),
    ("LDRSB", "byte"),
   ("LDRSH", "short"), ("LDRD", "double")]

/-- What the stores store. -/
def stores : List (String × String) :=
  [("STRB", "byte"), ("STRH", "short"), ("STR", "word"), ("STRD", "double")]

/-- Instructions that are written as assignments. -/
def assignments : List String :=
  ["SUB", "ADD", "MOV", "AND", "EOR", "ORR", "CMP", "ASR", "LSL", "LSR", "ROR", "RRX"]

/-- Writes a move between a register and memory. -/
def transfer (s : Scene) (i : Insn) (dst src : Int) (type : String) : Listing Unit := do
  value s i dst
  write " = ("
  ink .typeName type
  write ") "
  value s i src

/-- Writes an assignment or comparison. -/
def assignment (s : Scene) (i : Insn) : Listing Unit := do
  let sign := " " ++ opSymbol i.opcode ++ " "
  value s i 0
  if i.opcode = "CMP" then
    write sign
    value s i 1
  else
    write " = "
    value s i 1
    if i.operands.length = 3 then
      write sign
      value s i 2

/-- Writes the body of an instruction that transfers no control; tells whether it looks different
from the assembly text. -/
def plainBody (s : Scene) (i : Insn) : Listing Bool := do
  match loads.lookup i.opcode, stores.lookup i.opcode with
  | some type, _ => do
    transfer s i 0 1 type
    return true
  | none, some type => do
    transfer s i 1 0 type
    return true
  | none, none =>
    if assignments.contains i.opcode then
      assignment s i
      return true
    else plainInsn i fun k => operand s i k false true

def jump (s : Scene) (i : Insn) : Listing Unit := do
  write (i.mnemonic ++ " ")
  let op ← ask (i.operand 0)
  if op.isImmediate then s.target op.number
  else
    write i.opText
    let stops ← ask (isUncondJump i)
    only (stops && s.options.comments && !s.options.dump) (ink .comment " # STOPPED")

/-- Writes an instruction as a comment line. -/
def remark (s : Scene) (i : Insn) (depth : Int) : Listing Unit := do
  if s.options.comments then
    only (← s.label i.addr depth true) newline
    indent depth
    ink .comment "# "
    s.address i.addr 0 true
    s.remarkBytes i
    ink .comment i.text
    newline

/-- Writes an instruction on its line or lines, unless it is shown in a condition. -/
def insn (s : Scene) (i : Insn) (depth : Int) : Listing Unit := do
  if s.marks.fused.contains i.addr then return
  s.symbolLine i.addr depth
  s.labelAndAddress i.addr depth true
  s.bytes i
  if ← ask (isRet i) then
    ink .transfer i.text
  else if isCall i then
    ink .transfer i.mnemonic
    write " "
    let differs ← operand s i 0 true true
    s.assemblyComment i (differs.getD false)
  else if ← ask (isJump i) then
    jump s i
  else
    let differs ← plainBody s i
    only (i.setsFlags && i.opcode ≠ "CMP" && i.opcode ≠ "TST") (ink .typeName " (FLAGS)")
    s.assemblyComment i differs
  newline

end Decompiler.Arm
