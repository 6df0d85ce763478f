import Decompiler.Arch
import Decompiler.Marks
import Decompiler.Tree.Edit
import Decompiler.Flow.Paths
/-!
# Colours of jump targets

Every address that a goto or a jump of the tree leads to gets a colour of its own, in the order in
which they come up.
-/

namespace Decompiler

/-- Where a block that starts with a direct jump leads; none for other blocks. On ARM the operands
tell jumps from other instructions, and only a machine instruction has operands. -/
def Arch.jumpOf (arch : Arch) (succs : Edges) (items : List Item) : Except Fault (Option Int) := do
  match ← firstItem items with
  | .insn i =>
    if ← arch.isUncondJump i then
      if (← i.operand 0).isImmediate then
        match succs.get? i.addr with
        | none => throw (.noEdge i.addr)
        | some [] => throw .outOfRange
        | some (next :: _) => return some next
      else return none
    else return none
  | _ => if arch = .arm then throw .syntheticItem else return none

/-- Colours where a block that starts with a direct jump leads. -/
def Arch.tintJump (arch : Arch) (succs : Edges) (m : Marks) (items : List Item) :
    Except Fault Marks := do
  match ← arch.jumpOf succs items with
  | some addr => return m.tint addr
  | none => return m

mutual

/-- Colours the targets in a node. -/
def Node.tintTargets (arch : Arch) (succs : Edges) (m : Marks) : Node → Edited Marks
  | .block items => .attempt m (arch.tintJump succs m items)
  | .goto target _ => .done (m.tint target)
  | .ifGoto _ _ target _ _ => .done (m.tint target)
  | .ifElse _ _ _ next other _ _ =>
    (branchTintTargets arch succs m other).next (branchTintTargets arch succs · next)
  | .loop _ _ body => branchTintTargets arch succs m body
  | .ifCond _ body _ => if arch = .x86 then .done m else branchTintTargets arch succs m body
  | .andIf .. => .done m
  | .comment _ => .done m

/-- Colours the targets in a branch. -/
def branchTintTargets (arch : Arch) (succs : Edges) (m : Marks) : List Node → Edited Marks
  | [] => .done m
  | n :: rest => (n.tintTargets arch succs m).next (branchTintTargets arch succs · rest)

end

end Decompiler
