import Decompiler.Text.Hex
import Decompiler.Tree.Edit
/-!
# Loading constants on MIPS

A constant is loaded into a register by an addition to the zero register, or in two halves. Such
instructions are replaced by one pseudo instruction that shows the constant.
-/

namespace Decompiler.Mips

/-- The instructions that add or merge a constant. -/
def addsConstant (i : Insn) : Bool := i.opcode = "ADDIU" || i.opcode = "ORI"

/-- Target, source and constant of an instruction of the form `op register, register, constant`. -/
def constantForm (i : Insn) : Except Fault (Option (String × String × Int)) := do
  match (← i.operand 0).register? with
  | none => return none
  | some rd =>
    match (← i.operand 1).register? with
    | none => return none
    | some rs =>
      let k ← i.operand 2
      return if k.isImmediate then some (rd, rs, k.number) else none

/-- Target and constant of an instruction of the form `op register, constant`. -/
def upperForm (i : Insn) : Except Fault (Option (String × Int)) := do
  match (← i.operand 0).register? with
  | none => return none
  | some rd =>
    let k ← i.operand 1
    return if k.isImmediate then some (rd, k.number) else none

/-- The pseudo instruction for a constant loaded in two halves by two instructions. -/
def loadPair (upper lower : Insn) : Except Fault (Option Item) := do
  match ← constantForm lower with
  | none => return none
  | some (rd, rs, low) =>
    if rd ≠ rs then return none
    match ← upperForm upper with
    | none => return none
    | some (ru, high) =>
      return if ru = rd then
        some (.pseudo ("li $" ++ rd ++ ", " ++ Text.hex (high * 65536 + low)) [upper, lower])
      else none

/-- The pseudo instruction for a constant added to the zero register. -/
def loadSingle (i : Insn) : Except Fault (Option Item) := do
  match ← constantForm i with
  | none => return none
  | some (rd, rs, value) =>
    return if rs = "zero" then some (.pseudo ("li $" ++ rd ++ ", " ++ toString value) [i]) else none

/-- What becomes of an instruction after another one: the items for the one before, if that is
absorbed, and for itself. -/
def loadItem (previous : Option Insn) (i : Insn) : Except Fault (Bool × Item) :=
  if addsConstant i then
    match previous.filter (·.opcode = "LUI") with
    | some upper => do
      match ← loadPair upper i with
      | some item => return (true, item)
      | none => return (false, .insn i)
    | none => do return (false, (← loadSingle i).getD (.insn i))
  else .ok (false, .insn i)

/-- Replaces loads of constants in a block. `previous` is the instruction before the remaining
items, and `out` the items in front of them, the last one first. -/
def loadsFrom (previous : Option Insn) (out : List Item) : List Item → Edited (List Item)
  | [] => .done out.reverse
  | .insn i :: rest =>
    match loadItem previous i with
    | .error e => .stopped (out.reverse ++ .insn i :: rest) e
    | .ok (absorbs, item) =>
      let out := if absorbs then .gap :: out.tail else out
      loadsFrom (some i) (item :: out) rest
  | item :: rest => .stopped (out.reverse ++ item :: rest) .syntheticItem

mutual

/-- Replaces loads of constants inside a node. -/
def loadNode : Node → Edited Node
  | .block items => (loadsFrom none [] items).map .block
  | .ifElse jump expected place next other slot fused =>
    let again (next other : List Node) : Node := .ifElse jump expected place next other slot fused
    (loadBranch other).andThen (again next) fun other => (loadBranch next).map (again · other)
  | .loop endless place body => (loadBranch body).map (.loop endless place)
  | n => .done n

/-- Replaces loads of constants in a branch. -/
def loadBranch : List Node → Edited (List Node)
  | [] => .done []
  | n :: rest => (loadNode n).andThen (· :: rest) fun n => (loadBranch rest).map (n :: ·)

end

end Decompiler.Mips
