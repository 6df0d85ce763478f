import Decompiler.Arch
import Decompiler.Tree.Edit
/-!
# Comparisons shown in conditions

A comparison right in front of a conditional construct is shown inside the condition, and no longer
as an instruction of its own.
-/

namespace Decompiler

/-- Whether an instruction can be shown inside a condition. -/
def Arch.isFusable : Arch → Insn → Bool
  | x86, i =>
    X86.assignmentOps.contains i.opcode || i.opcode = "CMP" || (i.opcode = "TEST" && i.sameRegister)
  | arm, i => Arm.assignmentOps.contains i.opcode || i.opcode = "CMP" || i.opcode = "TST"
  | mips, _ => false

/-- Whether a construct can show a comparison; groups of conditional instructions do so where they
exist. -/
def Arch.canFuse : Arch → Node → Bool
  | _, .ifElse .. | _, .ifGoto .. | _, .andIf .. => true
  | x86, .ifCond .. => false
  | _, .ifCond .. => true
  | _, _ => false

/-- The construct with a comparison in its condition. -/
def Node.withFused (i : Insn) : Node → Node
  | .ifElse jump expected place next other slot _ =>
    .ifElse jump expected place next other slot (some i)
  | .ifGoto jump cond target slot _ => .ifGoto jump cond target slot (some i)
  | .andIf jump cond expected slot _ => .andIf jump cond expected slot (some i)
  | .ifCond cond body _ => .ifCond cond body (some i)
  | n => n

/-- The comparison at the end of a block, if there is one. -/
def Arch.comparison (arch : Arch) (items : List Item) : Except Fault (Option Insn) := do
  let item ← lastItem items
  return item.insn?.filter arch.isFusable

mutual

/-- Fuses comparisons inside a node; gives their addresses too. -/
def Node.fuse (arch : Arch) : Node → Edited (Node × List Int)
  | .ifElse jump expected place next other slot fused =>
    let again (next other : List Node) : Node := .ifElse jump expected place next other slot fused
    (branchFuse arch none next).andThen (fun r => (again r.1 other, r.2)) fun r =>
      (branchFuse arch none other).map fun r' => (again r.1 r'.1, r.2 ++ r'.2)
  | .loop endless place body =>
    (branchFuse arch none body).map fun r => (.loop endless place r.1, r.2)
  | n => .done (n, [])

/-- Fuses comparisons in a branch; `comparison` is the one at the end of the block right before. -/
def branchFuse (arch : Arch) (comparison : Option Insn) : List Node → Edited (List Node × List Int)
  | [] => .done ([], [])
  | .block items :: rest =>
    match arch.comparison items with
    | .error e => .stopped (.block items :: rest, []) e
    | .ok found => (branchFuse arch found rest).map fun r => (.block items :: r.1, r.2)
  | n :: rest =>
    let shown := if arch.canFuse n then comparison else none
    let mark (n : Node) : Node := shown.elim n fun i => n.withFused i
    let addrs := (shown.map (·.addr)).toList
    ((n.fuse arch).map fun r => (mark r.1, addrs ++ r.2)).andThen (fun r => (r.1 :: rest, r.2))
      fun r =>
      (branchFuse arch none rest).map fun r' => (r.1 :: r'.1, r.2 ++ r'.2)

end

/-- Fuses the comparisons of a tree; gives their addresses too. -/
def Arch.fuse (arch : Arch) (tree : List Node) : Edited (List Node × List Int) :=
  branchFuse arch none tree

end Decompiler
