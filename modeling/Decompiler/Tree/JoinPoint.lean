import Decompiler.Flow.LoopNest
/-!
# Where the ways of a conditional jump meet again

After a conditional jump the code of both ways is followed until they meet. The search walks both
ways at once within the loop in force, stops in front of nodes that wait for other predecessors, and
takes the node at which everything that is left has to wait. A path that is bound to go round a loop
again does not lead there.
-/

namespace Decompiler

/-- The innermost loop in force: its key and nodes; none outside of all loops, where the start is
the function's entry. -/
structure Scope where
  loop : Option LoopId
  start : Int
  nodes : Region
  deriving DecidableEq, Repr

/-- Predecessors that a node has to wait for in a scope. Edges from inside a loop to its start, and
edges from outside of the loop in force, are not waited for. -/
def Scope.awaited (g : Graph) (nest : LoopNest) (scope : Scope) (addr : Int) : List Int :=
  let preds := distinct (g.preds.getD addr [])
  let preds :=
    match scope.loop with
    | some k =>
      -- The node starts an equivalent of the loop in force.
      if LoopNest.areEquivalent nest.equivalents k ⟨k.outer, addr⟩ then
        preds.filter scope.nodes.holds
      else preds
    | none => preds
  let preds :=
    match nest.tables.all.get? ⟨scope.start, addr⟩ with
    | some inside => preds.filter (· ∉ inside)
    | none => preds
  preds.filter scope.nodes.holds

namespace JoinPoint

/-- A search under way: the edges to follow, the last one first, the nodes visited, those for which
the waiting is over, and those that wait. -/
structure Search where
  stack : List (Option Int × Int)
  visited : List Int
  done : List Int
  waiting : OrdMap Int (List Int)

/-- Whether an edge is left aside: it leaves the loop in force, or is bound to go round another
loop. -/
def leftAside (nest : LoopNest) (scope : Scope) (addr : Int) : Bool :=
  (scope.loop.isSome && !scope.nodes.holds addr) ||
    match nest.closing.get? addr with
    | none => false
    | some loops => scope.loop.all (· ∉ loops)

/-- The predecessors for which the search has to wait in front of a node, if there are several. -/
def holdUp (g : Graph) (nest : LoopNest) (scope : Scope) (s : Search) (addr : Int) :
    Except Fault (Option (List Int)) :=
  if addr ∈ s.done then .ok none
  else
    match g.preds.get? addr with
    | none => .error (.noEdge addr)
    | some preds =>
      if addr = scope.start || 1 < preds.length then
        let missing := scope.awaited g nest addr
        .ok (if 1 < missing.length then some missing else none)
      else .ok none

/-- Notes that an edge has arrived in front of a node that has to wait for `missing`. -/
def arrive (s : Search) (source : Option Int) (addr : Int) (missing : List Int) :
    Except Fault Search :=
  match s.waiting.get? addr with
  | some rest =>
    .ok { s with waiting := s.waiting.insert addr (rest.filter (fun p => some p ≠ source)) }
  | none =>
    match source with
    | some p =>
      if p ∈ missing then .ok { s with waiting := s.waiting.insert addr (missing.erase p) }
      else .error (.notAwaited addr)
    | none => .error (.notAwaited addr)

/-- Follows edges until none is left. Every node puts its edges on the stack once. -/
def drain (g : Graph) (nest : LoopNest) (scope : Scope) :
    (fuel : Nat) → Search → Except Fault Search
  | 0, _ => .error .stepBound
  | fuel + 1, s =>
    match s.stack with
    | [] => .ok s
    | (source, addr) :: stack =>
      let s := { s with stack }
      if leftAside nest scope addr then drain g nest scope fuel s
      else do
        match ← holdUp g nest scope s addr with
        | some missing => drain g nest scope fuel (← arrive s source addr missing)
        | none =>
          if addr ∈ s.visited then drain g nest scope fuel s
          else
            drain g nest scope fuel
              { s with
                visited := addr :: s.visited
                stack := ((g.next addr).map fun n => (some addr, n)).reverse ++ s.stack }

/-- Lets a node go on if it has nothing left to wait for. -/
def letGo (s : Search) (e : Int × List Int) : Search :=
  if e.2.isEmpty then
    { s with
      waiting := s.waiting.erase e.1
      done := s.done.insert e.1
      stack := (none, e.1) :: s.stack }
  else s

/-- Lets the nodes go on that have nothing left to wait for. -/
def release (s : Search) : Search := s.waiting.entries.foldl letGo s

/-- A clearing of the nodes that wait: what they still wait for, whether it has to be looked at
again, and the answers about paths. -/
structure Pruning (α : Type) where
  kept : α
  again : Bool
  memo : PathMemo

/-- Stops waiting for a predecessor if it cannot be reached from `source`; to be looked at again if
there were others. -/
def prunePred (g : Graph) (source : Int) (acc : Pruning (List Int)) (p : Int) :
    Pruning (List Int) :=
  let (reached, memo) := g.succs.reachesMemo acc.memo source p
  if reached then { acc with memo }
  else ⟨acc.kept.erase p, acc.again || 1 < acc.kept.length, memo⟩

/-- Stops waiting at one node for predecessors that cannot be reached from `source`. A node for
which nothing is left to wait by that is dropped. -/
def pruneNode (g : Graph) (source : Int) (acc : Pruning (OrdMap Int (List Int)))
    (e : Int × List Int) : Pruning (OrdMap Int (List Int)) :=
  let missing := e.2.foldl (prunePred g source) ⟨e.2, false, acc.memo⟩
  let waiting :=
    if missing.kept.isEmpty && !e.2.isEmpty then acc.kept.erase e.1
      else acc.kept.insert e.1 missing.kept
  ⟨waiting, acc.again || missing.again, missing.memo⟩

/-- Stops waiting everywhere for predecessors that cannot be reached from `source`. -/
def prune (g : Graph) (source : Int) (memo : PathMemo) (waiting : OrdMap Int (List Int)) :
    Pruning (OrdMap Int (List Int)) :=
  waiting.entries.foldl (pruneNode g source) ⟨waiting, false, memo⟩

/-- What to do after a walk has come to rest. -/
inductive Verdict where
  | found (addr : Int)
  | goOn (s : Search)

/-- Lets nodes go on; if there are none, stops waiting for what cannot be reached and tries
again. -/
def settle (g : Graph) (source : Int) :
    (fuel : Nat) → PathMemo → Search → Except Fault (Verdict × PathMemo)
  | 0, _, _ => .error .stepBound
  | fuel + 1, memo, s =>
    let s := release s
    if s.stack.isEmpty && !s.waiting.isEmpty then
      let pruned := prune g source memo s.waiting
      let s := { s with waiting := pruned.kept }
      match s.waiting.keys with
      -- A node that is alone is the answer, whatever it still waits for.
      | [addr] => .ok (.found addr, pruned.memo)
      | _ => if pruned.again then settle g source fuel pruned.memo s else .ok (.goOn s, pruned.memo)
    else .ok (.goOn s, memo)

/-- Walks, and takes the single node that waits; otherwise lets nodes go on and walks again. Every
round ends the waiting of a node. -/
def rounds (g : Graph) (nest : LoopNest) (scope : Scope) (source : Int) :
    (fuel : Nat) → PathMemo → Search → Except Fault (Option Int × PathMemo)
  | 0, _, _ => .error .stepBound
  | fuel + 1, memo, s => do
    let s ← drain g nest scope (s.stack.length + g.edgeCount + 1) s
    match s.waiting.keys with
    | [] => return (none, memo)
    | [addr] => return (some addr, memo)
    | _ => do
      let (verdict, memo) ← settle g source (g.nodes.size + 2) memo s
      match verdict with
      | .found addr => return (some addr, memo)
      | .goOn s =>
        if s.stack.isEmpty then return (none, memo) else rounds g nest scope source fuel memo s

end JoinPoint

/-- The node at which the two ways of a conditional jump meet, if it lies in the loop in force
itself and not in one inside it. -/
def Graph.joinPoint (g : Graph) (nest : LoopNest) (scope : Scope) (memo : PathMemo) (source : Int) :
    Except Fault (Option Int × PathMemo) := do
  let start : JoinPoint.Search :=
    ⟨((g.next source).map fun n => (some source, n)).reverse, [], [], ∅⟩
  let (found, memo) ← JoinPoint.rounds g nest scope source (g.nodes.size + 2) memo start
  let allowed :=
    match scope.loop with
    | none => nest.outside
    | some k => nest.tables.own.getD k []
  return (found.filter (· ∈ allowed), memo)

end Decompiler
