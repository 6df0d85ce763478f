import Decompiler.Flow.Graph
/-!
# Discovering the flow graph of a function

Starting from the entry, instructions are followed along their successors; every instruction becomes
a node of its own. A jump through a register or memory has no known successor. A direct jump to a
place where nothing can be decoded makes the discovery fail, while running on into such a place only
ends the path.

On MIPS the instruction after a jump is executed with it and is kept in the jump's node.
-/

namespace Decompiler

/-- A discovery under way: the graph so far and the addresses still to visit, the next one first. -/
structure Discovery where
  graph : Graph
  rest : List Int

namespace Discovery

/-- The instruction in the delay slot of an instruction, on machines that have one. -/
def delaySlot (arch : Arch) (i : Insn) : Decoding (Option Insn) :=
  if arch = .mips then Program.fetch i.next none else pure none

/-- Where execution goes on after a jump that is not taken: behind its delay slot, if the machine
has one. -/
def afterJump (arch : Arch) (i : Insn) (slot : Option Insn) : Decoding Int :=
  if arch = .mips then
    match slot with
    | some s => pure s.next
    | none => throw .undecodable
  else pure i.next

/-- Follows a jump without condition. -/
def visitJump (d : Discovery) (i : Insn) (slot : Option Insn) : Decoding Discovery :=
  let uncondJumps := d.graph.uncondJumps.insert i.addr
  match i.target? with
  | some addr => do
    let t ← Program.fetchTarget addr
    return ⟨{ d.graph.addStep i t.addr slot with uncondJumps }, t.addr :: d.rest⟩
  | none => return { d with graph := { d.graph.addNode i slot with uncondJumps } }

/-- Follows a conditional jump both ways. -/
def visitFork (d : Discovery) (arch : Arch) (i : Insn) (slot : Option Insn) : Decoding Discovery :=
  let condJumps := d.graph.condJumps.insert i.addr
  match i.target? with
  | some addr => do
    let t? ← Program.fetch addr none
    let after ← afterJump arch i slot
    let n? ← Program.fetch after none
    match t?, n? with
    | some t, some n =>
      return ⟨{ d.graph.addFork i n.addr t.addr slot with condJumps }, n.addr :: t.addr :: d.rest⟩
    | _, _ => throw .undecodable
  | none => return { d with graph := { d.graph.addNode i slot with condJumps } }

/-- Follows an instruction that does not jump to the next one; the path ends where nothing can be
decoded. -/
def visitStep (d : Discovery) (i : Insn) : Decoding Discovery := do
  match ← Program.fetch i.next none with
  | some n => return ⟨d.graph.addStep i n.addr none, n.addr :: d.rest⟩
  | none => return { d with graph := d.graph.addNode i none }

/-- Adds the node of an instruction that is not in the graph yet. -/
def visit (d : Discovery) (i : Insn) : Decoding Discovery := do
  let arch := (← get).arch
  let slot ← delaySlot arch i
  if (← Program.ask (arch.isUncondJump i)) && !i.operands.isEmpty then d.visitJump i slot
  else if (← Program.ask (arch.isCondJump i)) && !i.operands.isEmpty then d.visitFork arch i slot
  else if ← Program.ask (arch.isRet i) then return { d with graph := d.graph.addNode i slot }
  else d.visitStep i

/-- Adds the node of an instruction unless it is there. -/
def visitNew (d : Discovery) (i : Insn) : Decoding Discovery :=
  if d.graph.nodes.contains i.addr then pure d else d.visit i

/-- Visits an instruction and then all addresses still to visit; `fuel` bounds their number. -/
def visitAll : (fuel : Nat) → Discovery → Insn → Decoding Graph
  | 0, _, _ => throw .stepBound
  | fuel + 1, d, i => do
    let d ← d.visitNew i
    match d.rest with
    | [] => return d.graph
    | addr :: rest => do
      let i ← Program.fetchTarget addr
      visitAll fuel { d with rest } i

end Discovery

/-- The flow graph of the function at an address, one instruction a node; none if nothing can be
decoded there. Every node of the graph is an instruction of the decoder's table and adds at most two
addresses to visit, which bounds the number of visits. -/
def Graph.discover (entry : Int) : Decoding (Option Graph) := do
  match ← Program.fetch entry none with
  | none => return none
  | some i => do
    let fuel := 2 * (← get).decoder.table.length + 2
    return some (← Discovery.visitAll fuel ⟨Graph.start entry, []⟩ i)

end Decompiler
