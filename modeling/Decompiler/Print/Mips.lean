import Decompiler.Print.Operand
/-!
# Pseudo code of MIPS instructions
-/

namespace Decompiler.Mips

open Listing Scene

/-- Writes an operand. Memory is written as what is stored there, or with `deref` off as its
address. -/
def operand (s : Scene) (i : Insn) (k : Int) (inHex deref : Bool) : Listing (Option Bool) := do
  let op ← ask (i.operand k)
  match op.value with
  | .immediate n => some <$> s.immediate n inHex false
  | .register name _ => do
    write "$"
    write name
    return some false
  | .memory m => do
    only deref (write "*(")
    match m.base with
    | some r => write ("$" ++ r)
    | none => pure ()
    s.displacement m.disp m.base.isSome
    only deref (write ")")
    return some true
  | .real _ => return none
  | .tooLarge => return none
  | .other => return none

/-- Writes an operand as a value. -/
def value (s : Scene) (i : Insn) (k : Int) : Listing Unit := do
  let _ ← operand s i k false true

/-- Writes a condition, together with the comparison that it tests if that is known. -/
def condition (s : Scene) (cond : Option String) (fused : Option Insn) : Listing Unit := do
  let sign := Arch.condSymbol .mips cond
  match fused with
  | none =>
    write sign
    only (cond.any (comparesZero.contains ·)) (write " 0")
  | some i =>
    write "("
    value s i 0
    write " "
    write sign
    write " "
    value s i 1
    write ")"

/-! ## Instructions -/

/-- What the loads load. -/
def loads : List (String × String) := [("LW", "word"), ("LB", "byte"), ("LBU", "unsigned byte")]

/-- What the stores store. -/
def stores : List (String × String) := [("SW", "word"), ("SB", "byte")]

/-- Instructions that are written as assignments. -/
def assignments : List String :=
  ["AND", "ADD", "ADDU", "ADDIU", "SLL", "SRA", "SRL", "SUB", "SUBU", "MOVE", "LUI"]

/-- Writes a move between a register and memory. -/
def transfer (s : Scene) (i : Insn) (dst src : Int) (type : String) : Listing Unit := do
  value s i dst
  write " = ("
  ink .typeName type
  write ") "
  value s i src

/-- Writes an assignment; a register that is also the first source is updated in place. -/
def assignment (s : Scene) (i : Insn) : Listing Unit := do
  if i.opcode = "LUI" then
    write "(load upper) "
    value s i 0
    write " = "
    value s i 1
  else if i.opcode = "MOVE" then
    value s i 0
    write " = "
    let src ← ask (i.operand 1)
    if src.register? = some "zero" then write "0" else value s i 1
  else
    value s i 0
    let dst ← ask (i.operand 0)
    let src ← ask (i.operand 1)
    if dst.isRegister && dst.register? = src.register? then
      write (" " ++ opSymbol i.opcode ++ "= ")
    else
      write " = "
      value s i 1
      write (" " ++ opSymbol i.opcode ++ " ")
    value s i 2

/-- Writes the body of an instruction that transfers no control; tells whether it looks different
from the assembly text. -/
def plainBody (s : Scene) (i : Insn) : Listing Bool := do
  match loads.lookup i.opcode, stores.lookup i.opcode with
  | some type, _ => do
    transfer s i 0 1 type
    return true
  | none, some type => do
    transfer s i 1 0 type
    return true
  | none, none =>
    if assignments.contains i.opcode then
      assignment s i
      return true
    else plainInsn i fun k => operand s i k false true

/-- Writes the operands in front of the target of a jump. -/
def testedOperands (s : Scene) (i : Insn) : Listing Unit :=
  each
    (fun k => do
      value s i k
      write ", ")
    ((List.range (i.operands.length - 1)).map Int.ofNat)

/-- Writes a jump. The number of its first operand stands for the target. -/
def jump (s : Scene) (i : Insn) : Listing Unit := do
  write (i.mnemonic ++ " ")
  let last ← ask (i.operand (-1))
  if last.isImmediate then
    testedOperands s i
    let op ← ask (i.operand 0)
    s.target op.number
  else
    write i.opText
    only (isUncondJump i && s.options.comments && !s.options.dump) (ink .comment " # STOPPED")

/-- Writes an instruction as a comment line. -/
def remark (s : Scene) (i : Insn) (depth : Int) : Listing Unit := do
  if s.options.comments then
    only (← s.label i.addr depth true) newline
    indent depth
    ink .comment "# "
    s.address i.addr 0 true
    s.remarkBytes i
    ink .comment i.text
    newline

/-- Writes an instruction on its line or lines, unless it is shown in a condition. -/
def insn (s : Scene) (i : Insn) (depth : Int) : Listing Unit := do
  if s.marks.fused.contains i.addr then return
  s.symbolLine i.addr depth
  s.labelAndAddress i.addr depth true
  s.bytes i
  if ← ask (isRet i) then
    ink .transfer i.text
  else if isCall i then
    ink .transfer i.mnemonic
    write " "
    let differs ← operand s i 0 true true
    s.assemblyComment i (differs.getD false)
  else if ← ask (isJump i) then
    jump s i
  else
    let differs ← plainBody s i
    s.assemblyComment i differs
  newline

/-- Writes a pseudo instruction, under the instructions that it stands for. -/
def pseudo (s : Scene) (text : String) (parts : List Insn) (depth : Int) : Listing Unit := do
  each (remark s · depth) parts
  match parts with
  | first :: _ => s.labelAndAddress first.addr depth true
  | [] => fail .outOfRange
  write text
  newline

end Decompiler.Mips
