import Decompiler.Program
import Decompiler.Flow.Paths
/-!
# Flow graphs

The control flow of a function: blocks of instructions, by the address of their first one, and the
edges between them. A conditional jump has two successors, the next instruction first and the jump's
target second. `succs` and `preds` list the same edges from both ends.
-/

namespace Decompiler

/-- A flow graph. -/
structure Graph where
  entry : Int
  nodes : OrdMap Int (List Insn)
  succs : Edges
  preds : Edges
  condJumps : List Int
  uncondJumps : List Int
  deriving DecidableEq, Repr

namespace Graph

/-- The graph without nodes. -/
def start (entry : Int) : Graph := ⟨entry, ∅, ∅, ∅, [], []⟩

/-- The successors of a node. -/
def next (g : Graph) (addr : Int) : List Int := g.succs.getD addr []

/-- The number of edges. -/
def edgeCount (g : Graph) : Nat := g.succs.values.flatten.length

/-- Adds a node: an instruction, and the one in its delay slot if that belongs to it. -/
def addNode (g : Graph) (i : Insn) (slot : Option Insn) : Graph :=
  { g with nodes := g.nodes.insert i.addr (i :: slot.toList) }

/-- Adds a predecessor to a node. -/
def addPred (g : Graph) (addr pred : Int) : Graph :=
  { g with preds := g.preds.upsert addr [] (· ++ [pred]) }

/-- Adds a node with one successor. -/
def addStep (g : Graph) (i : Insn) (next : Int) (slot : Option Insn) : Graph :=
  let g := g.addNode i slot
  { g with succs := g.succs.insert i.addr [next] }.addPred next i.addr

/-- Adds a node with two successors: the next instruction and the target. -/
def addFork (g : Graph) (i : Insn) (next target : Int) (slot : Option Insn) : Graph :=
  let g := g.addNode i slot
  ({ g with succs := g.succs.insert i.addr [next, target] }.addPred target i.addr).addPred
    next i.addr

end Graph

end Decompiler
