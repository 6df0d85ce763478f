import Decompiler.Marks
import Decompiler.Symbols
import Decompiler.Arch
import Decompiler.Tree.Edit
/-!
# Local variables on x86

Memory at a fixed distance from the frame register is a local variable. A variable that is read
right before the check of the stack guard gets a mark in its name.
-/

namespace Decompiler

/-- The distance from the frame register, of a reference that uses nothing else. -/
def MemRef.frameOffset? (m : MemRef) : Option Int :=
  if (m.base = some "rbp" || m.base = some "ebp") && m.disp ≠ 0 && m.segment = none && m.index =
    none then
    some m.disp
  else none

/-- Makes the variables that an instruction uses known. -/
def Locals.declareIn (l : Locals) (i : Insn) : Locals :=
  i.operands.foldl
    (fun l op =>
      match op.mem.frameOffset? with
      | some disp => l.declare disp op.size
      | none => l)
    l

/-- Makes the variables of a block known. -/
def Locals.declareAll (l : Locals) (items : List Item) : Locals :=
  items.foldl (fun l item => item.insn?.elim l l.declareIn) l

/-- Makes the variables of a fused comparison known. -/
def Locals.declareFused (l : Locals) (fused : Option Insn) : Locals := fused.elim l l.declareIn

mutual

/-- Makes the variables of a node known. -/
def Node.declareLocals (l : Locals) : Node → Locals
  | .block items => l.declareAll items
  | .ifElse _ _ _ next other _ fused =>
    branchDeclareLocals (branchDeclareLocals (l.declareFused fused) next) other
  | .ifGoto _ _ _ _ fused => l.declareFused fused
  | .loop _ _ body => branchDeclareLocals l body
  | _ => l

/-- Makes the variables of a branch known. -/
def branchDeclareLocals (l : Locals) : List Node → Locals
  | [] => l
  | n :: rest => branchDeclareLocals (n.declareLocals l) rest

end

/-! ## The stack guard -/

/-- The symbol that is called when the stack guard was damaged. -/
def guardFailure : String := "__stack_chk_fail@plt"

/-- Marks the variable that the last of some instructions loads, going backwards. -/
def Locals.markGuard (l : Locals) : List Insn → Except Fault Locals
  | [] => .ok l
  | i :: rest =>
    if i.opcode = "MOV" then do
      let op ← i.operand 1
      match op.mem.frameOffset? with
      | some disp =>
        if l.index.contains disp then return l.rename disp "_canary" else l.markGuard rest
      | none => l.markGuard rest
    else l.markGuard rest

/-- Looks at the calls of a block; `before` is the block in front of it. -/
def Locals.markGuardIn (failure : Int) (before : List Insn) (l : Locals) : List Insn → Edited Locals
  | [] => .done l
  | i :: rest =>
    if i.callGroup then
      (Edited.attempt l do
        let op ← i.operand 0
        if op.isImmediate && op.number = failure then l.markGuard (before.reverse.take 4)
          else return l).next
        (markGuardIn failure before · rest)
    else markGuardIn failure before l rest

/-- The machine instructions of a block. -/
def Node.insns? (n : Node) : Option (List Insn) := n.items?.map (·.filterMap Item.insn?)

mutual

/-- Marks guard variables in a node; `before` is the last block in front of it. -/
def Node.markGuards (failure : Int) (before : List Insn) (l : Locals) : Node → Edited Locals
  | .block items => l.markGuardIn failure before (items.filterMap Item.insn?)
  | .ifElse _ _ _ next other _ _ =>
    (branchMarkGuards failure before l other).next (branchMarkGuards failure before · next)
  | .loop _ _ body => branchMarkGuards failure before l body
  | _ => .done l

/-- Marks guard variables in a branch. -/
def branchMarkGuards (failure : Int) (before : List Insn) (l : Locals) : List Node → Edited Locals
  | [] => .done l
  | n :: rest =>
    (n.markGuards failure before l).next (branchMarkGuards failure (n.insns?.getD before) · rest)

end

/-- Marks the guard variables of a tree, if the symbol for a damaged guard is known. -/
def Locals.markGuards (l : Locals) (symbols : Symbols) (tree : List Node) : Edited Locals :=
  match symbols.byName.get? (some guardFailure) with
  | some failure => branchMarkGuards failure [] l tree
  | none => .done l

end Decompiler
