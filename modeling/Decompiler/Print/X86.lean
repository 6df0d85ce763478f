import Decompiler.Print.Operand
import Decompiler.Idiom.LocalVariables
/-!
# Pseudo code of x86 instructions
-/

namespace Decompiler.X86

open Listing Scene

/-- Writes the registers and the displacement of a memory reference. -/
def reference (s : Scene) (m : MemRef) : Listing Unit := do
  let first := m.base <|> m.segment
  only first.isSome (write (first.getD ""))
  match m.index with
  | some r =>
    only first.isSome (write " + ")
    Scene.index r m.scale
  | none => pure ()
  s.displacement m.disp (first.isSome || m.index.isSome)

/-- Memory that has a name of its own: a local variable, or what the instruction pointer reaches. -/
def named? (s : Scene) (i : Insn) (m : MemRef) : Option Piece :=
  if m.disp ≠ 0 && m.segment = none && m.index = none then
    match m.base with
    | some r =>
      if r = "rbp" || r = "ebp" then
        (s.marks.locals.name? m.disp).map (.text (.role .localName))
      else if r = "rip" || r = "eip" then
        some (.text .plain ("*(" ++ s.nameOrHex (i.next + m.disp) ++ ")"))
      else none
    | none => none
  else none

/-- Writes an operand. Memory is written as what is stored there, or with `deref` off as its
address. -/
def operand (s : Scene) (i : Insn) (k : Int) (inHex deref : Bool) : Listing (Option Bool) := do
  let op ← ask (i.operand k)
  match op.value with
  | .immediate n => some <$> s.immediate n inHex (op.size = 1)
  | .register name _ => do
    write name
    return some false
  | .real bits => do
    write (Text.fixedBinary 6 bits)
    return some false
  | .memory m => do
    match named? s i m with
    | some piece => put piece
    | none =>
      only deref (write "*(")
      reference s m
      only deref (write ")")
    return some true
  | .tooLarge => fail .realRange
  | .other => return none

/-- Writes an operand as a value. -/
def value (s : Scene) (i : Insn) (k : Int) : Listing Unit := do
  let _ ← operand s i k false true

/-- Writes the address that an operand holds. -/
def pointer (s : Scene) (i : Insn) (k : Int) : Listing Unit := do
  let _ ← operand s i k false false

/-- Writes a condition, together with the comparison that it tests if that is known. -/
def condition (s : Scene) (cond : Option String) (fused : Option Insn) : Listing Unit := do
  let sign := Arch.condSymbol .x86 cond
  let zero := cond.any (comparesZero.contains ·)
  match fused with
  | none =>
    write sign
    only zero (write " 0")
  | some i =>
    let assigns := assignmentOps.contains i.opcode
    let tests : Bool := i.opcode = "TEST"
    only assigns (write "(")
    write "("
    value s i 0
    write " "
    if tests then write sign
    else if assigns then
      write (symbol i.opcode)
      write " "
      value s i 1
      write ") "
      write sign
    else
      write sign
      write " "
      value s i 1
    only (tests || (i.opcode ≠ "CMP" && (zero || assigns))) (write " 0")
    write ")"

/-! ## Instructions -/

/-- Instructions that are written as assignments. -/
def assignments : List String :=
  ["SUB", "ADD", "MOV", "CMP", "XOR", "AND", "SHR", "SHL", "IMUL", "SAR", "SAL", "MOVZX", "DEC",
    "INC", "LEA", "MOVSX", "OR"]

/-- The widths of a string instruction, as its name gives them. -/
def stringForms (name : String) : List String :=
  [name ++ "B", name ++ "W", name ++ "D", name ++ "Q"]

/-- The registers that hold a product, and the register that holds the first factor, by width in
bytes. -/
def productRegisters : List (Int × String × String) :=
  [(1, "al", "ax"), (2, "ax", "dx:ax"), (4, "eax", "edx:eax"), (8, "rax", "rdx:rax")]

/-- Whether the second operand is a given immediate. -/
def secondIs (i : Insn) (n : Int) : Except Fault Bool := do
  let op ← i.operand 1
  return op.isImmediate && op.number = n

/-- The text between the operands of an operation on two operands. -/
def between (i : Insn) : String := " " ++ symbol i.opcode ++ " "

/-- Writes a signed multiplication, by its number of operands. -/
def multiplication (s : Scene) (i : Insn) : Listing Unit :=
  match i.operands with
  | [_, _, _] => do
    value s i 0
    write " = "
    value s i 1
    write " * "
    value s i 2
  | [_, _] => do
    value s i 0
    write (between i)
    value s i 1
  | [op] => do
    match productRegisters.lookup op.size with
    | some (factor, product) => write (product ++ " = " ++ factor ++ " * ")
    | none => pure ()
    value s i 0
  | _ => done ()

def assignment (s : Scene) (i : Insn) : Listing Unit := do
  let allOnes ← if i.opcode = "OR" then ask (secondIs i (-1)) else pure false
  let noBits ← if i.opcode = "AND" then ask (secondIs i 0) else pure false
  if allOnes then
    value s i 0
    write " = -1"
  else if noBits || (i.opcode = "XOR" && i.sameRegister) then
    value s i 0
    write " = 0"
  else if i.opcode = "INC" || i.opcode = "DEC" then
    value s i 0
    write (symbol i.opcode)
  else if i.opcode = "LEA" then
    value s i 0
    write " = &("
    value s i 1
    write ")"
  else if i.opcode = "MOVZX" then
    value s i 0
    write " = (zero ext) "
    value s i 1
  else if i.opcode = "IMUL" then multiplication s i
  else
    value s i 0
    write (between i)
    value s i 1

/-- Writes, on a line of its own, that a pointer goes to the next element; the line end comes
before. -/
def advance (s : Scene) (i : Insn) (depth : Int) (k : Int) (mark : String) : Listing Unit := do
  newline
  s.labelOrAddress i.addr depth true
  pointer s i k
  write (mark ++ " += D")

/-- Writes a string instruction: what it does, and the pointers that it advances with the text after
each. -/
def stringStep (s : Scene) (i : Insn) (depth : Int) (sign : String)
    (pointers : List (Int × String)) : Listing Unit := do
  value s i 0
  write sign
  value s i 1
  each (fun p => advance s i depth p.1 p.2) pointers

/-- Writes the body of an instruction that transfers no control; tells whether it looks different
from the assembly text. -/
def plainBody (s : Scene) (i : Insn) (depth : Int) : Listing Bool := do
  if assignments.contains i.opcode then
    assignment s i
    return true
  else if i.opcode = "CDQE" then
    write "rax = eax"
    return true
  else if i.opcode = "IDIV" then
    write "eax = edx:eax / "
    value s i 0
    write "; edx = edx:eax % "
    value s i 0
    return true
  else if i.opcode = "MUL" then
    let op ← ask (i.operand 0)
    match productRegisters.lookup op.size with
    | some (factor, product) => write (product ++ " = " ++ factor ++ " * ")
    | none => fail (.multiplierWidth op.size)
    value s i 0
    return true
  else if i.opcode = "NOT" then
    value s i 0
    write " ^= -1"
    return true
  else if (stringForms "SCAS").contains i.opcode then
    stringStep s i depth " cmp " [(1, "")]
    return true
  else if (stringForms "STOS").contains i.opcode then
    stringStep s i depth " = " [(0, "")]
    return true
  else if (stringForms "LODS").contains i.opcode then
    stringStep s i depth " = " [(1, "")]
    return true
  else if (stringForms "CMPS").contains i.opcode then
    stringStep s i depth " cmp " [(0, ""), (1, "'")]
    return true
  else if (stringForms "MOVS").contains i.opcode then
    stringStep s i depth " = " [(0, ""), (1, "")]
    return true
  else plainInsn i fun k => operand s i k false true

/-- Opens the loop of a repeated instruction. -/
def openRepetition (depth : Int) : Listing Unit := do
  indent depth
  ink .keyword "while"
  -- The second bracket has no partner.
  write " (!rcx)) "
  put .opening
  newline

/-- Counts down, leaves the loop on a mismatch, and closes it; `depth` is that of the body. -/
def closeRepetition (s : Scene) (i : Insn) (r : Repetition) (depth : Int) : Listing Unit := do
  newline
  s.labelOrAddress i.addr depth true
  write "rcx--"
  newline
  if r = .repne then
    indent depth
    ink .keyword "if"
    write " (!Z) "
    ink .keyword "break"
    newline
  indent (depth - 1)
  put .closing

def jump (s : Scene) (i : Insn) : Listing Unit := do
  write (i.mnemonic ++ " ")
  let op ← ask (i.operand 0)
  if op.isImmediate then s.target op.number
  else
    value s i 0
    only (isUncondJump i && s.options.comments && !s.options.dump) (ink .comment " # STOPPED")

/-- Writes an instruction, without what stands behind it on the line; tells whether it looks
different from the assembly text. -/
def body (s : Scene) (i : Insn) (depth : Int) : Listing Bool := do
  let depth ← match i.repetition with
    | some _ => do
      openRepetition depth
      pure (depth + 1)
    | none => pure depth
  s.labelAndAddress i.addr depth true
  s.bytes i
  -- The loop of a repetition is closed in the last case only, not after a transfer of control.
  if i.retGroup then
    ink .transfer i.text
    return false
  else if i.callGroup then
    ink .transfer i.mnemonic
    write " "
    return (← operand s i 0 true true).getD false
  else if i.jumpGroup then
    jump s i
    return false
  else
    let differs ← plainBody s i depth
    match i.repetition with
    | some r => closeRepetition s i r depth
    | none => pure ()
    return differs

/-- Writes an instruction as a comment line. -/
def remark (s : Scene) (i : Insn) (depth : Int) : Listing Unit := do
  if s.options.comments then
    if ← s.label i.addr depth true then
      newline
      indent depth
      put (.remark i.addr)
    else
      indent depth
      ink .comment "# "
      s.address i.addr 0 true
    s.remarkBytes i
    ink .comment i.text
    newline

/-- Writes an instruction on its line or lines, unless it is shown in a condition. -/
def insn (s : Scene) (i : Insn) (depth : Int) : Listing Unit := do
  if s.marks.fused.contains i.addr then return
  s.symbolLine i.addr depth
  let differs ← body s i depth
  match s.notes.get? i.addr with
  | some text =>
    ink .note " ; "
    ink .note text
  | none => pure ()
  s.assemblyComment i differs
  newline

end Decompiler.X86
