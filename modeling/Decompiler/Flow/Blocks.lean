import Decompiler.Flow.Graph
/-!
# Joining instructions into blocks

A node that is not a jump is appended to its predecessor when each is the other's only neighbour
there, so that straight-line code becomes one block. Jumps stay alone in their blocks, and the entry
begins one.
-/

namespace Decompiler.Graph

/-- The node that a node is to be appended to, if there is one. -/
def joinTo? (arch : Arch) (g : Graph) (addr : Int) : Except Fault (Option Int) := do
  match g.nodes.get? addr with
  | none | some [] => throw (.noEdge addr)
  | some (i :: _) =>
    if ← arch.isJump i then return none
    if addr = g.entry then return none
    match g.preds.get? addr with
    | some [pred] =>
      match g.nodes.get? pred with
      | none | some [] => throw (.noEdge pred)
      | some (j :: _) =>
        if ← arch.isJump j then return none
        match g.succs.get? pred with
        | some [_] => return some pred
        | _ => return none
    | _ => return none

/-- Replaces the first occurrence of one address in a list by another. -/
def replaceFirst (old new : Int) : List Int → List Int
  | [] => []
  | a :: rest => if a = old then new :: rest else a :: replaceFirst old new rest

/-- Appends a node to its predecessor. -/
def join (g : Graph) (pred addr : Int) : Graph :=
  let succs :=
    match g.succs.get? addr with
    | some next => (g.succs.insert pred next).erase addr
    | none => g.succs.erase pred
  { g with
    nodes := (g.nodes.insert pred (g.nodes.getD pred [] ++ g.nodes.getD addr [])).erase addr
    succs
    preds := ⟨(g.preds.erase addr).entries.map fun e => (e.1, replaceFirst addr pred e.2)⟩ }

/-- Joins each of a list of nodes to its predecessor where that is possible. -/
def joinAll (arch : Arch) (g : Graph) : List Int → Except Fault Graph
  | [] => .ok g
  | addr :: rest => do
    match ← g.joinTo? arch addr with
    | some pred => joinAll arch (g.join pred addr) rest
    | none => joinAll arch g rest

/-- The graph with straight-line code joined into blocks. -/
def blocks (arch : Arch) (g : Graph) : Except Fault Graph := g.joinAll arch g.nodes.keys

end Decompiler.Graph
