import Decompiler.Flow.Loops
/-!
# The loop nest of a function

What the structuring of a function needs to know about its loops: which of them are the same set of
nodes entered at different places, which can never be left, and from which nodes a path is bound to
go round the loop again.
-/

namespace Decompiler

/-- The loops of a function with what follows from them. -/
structure LoopNest where
  tables : LoopTables
  /-- Loops with the same nodes, by loop. -/
  equivalents : OrdMap LoopId (List LoopId)
  /-- Loops that are no loops of their own. -/
  spurious : List LoopId
  /-- Loops that no edge leaves. -/
  endless : List LoopId
  /-- The starts of all loops. -/
  starts : List Int
  /-- For a node, the loops whose last part it begins: once there, the path goes round again. -/
  closing : OrdMap Int (List LoopId)
  /-- The nodes that are in no loop. -/
  outside : List Int
  deriving DecidableEq, Repr

namespace LoopNest

/-- Whether two lists have the same elements. -/
def sameElements (a b : List Int) : Bool := a.all (· ∈ b) && b.all (· ∈ a)

/-! ## Equivalent loops -/

/-- Whether two loops consist of the same nodes and each contains the other's start. -/
def isShifted (a b : LoopId × List Int) : Bool :=
  a.1.start ∈ b.2 && b.1.start ∈ a.2 && sameElements a.2 b.2

/-- Notes that two loops are equivalent. -/
def linkLoops (m : OrdMap LoopId (List LoopId)) (a b : LoopId) : OrdMap LoopId (List LoopId) :=
  (m.upsert a [] (List.insert b)).upsert b [] (List.insert a)

/-- Compares each loop with those after it. -/
def equivalences :
    List (LoopId × List Int) → OrdMap LoopId (List LoopId) → OrdMap LoopId (List LoopId)
  | [], m => m
  | a :: rest, m =>
    equivalences rest (rest.foldl (fun m b => if isShifted a b then linkLoops m a.1 b.1 else m) m)

/-- Whether two loops are known to be equivalent. -/
def areEquivalent (m : OrdMap LoopId (List LoopId)) (a b : LoopId) : Bool := b ∈ m.getD a []

/-! ## Spurious loops -/

/-- A loop and everything that can be reached from it in a nesting relation. -/
def closure (links : OrdMap LoopId (List LoopId)) :
    (fuel : Nat) → LoopId → List LoopId → List LoopId
  | 0, _, acc => acc
  | fuel + 1, k, acc =>
    (links.getD k []).foldl (fun acc k' => closure links fuel k' acc) (acc.insert k)

/-- Marks a loop, the loops around it and the loops inside it. -/
def markSpurious (t : LoopTables) (marked : List LoopId) (k : LoopId) : List LoopId :=
  closure t.inner (t.own.size + 1) k (closure t.outer (t.own.size + 1) k marked)

/-- Whether the second loop runs through part of the first one again: it starts and was found inside
the first, contains its start, and has no other nodes. -/
def isStrange (a b : LoopId × List Int) : Bool :=
  b.1.outer ∈ a.2 && b.1.start ∈ a.2 && a.1.start ∈ b.2 && b.2.all (· ∈ a.2)

/-- Whether the first test for strangeness applies, whatever its result. -/
def overlaps (a b : LoopId × List Int) : Bool :=
  b.1.outer ∈ a.2 && b.1.start ∈ a.2 && a.1.start ∈ b.2

/-- Marks the spurious loops among a loop and those after it. -/
def markAgainst (t : LoopTables) (equiv : OrdMap LoopId (List LoopId)) (a : LoopId × List Int) :
    List (LoopId × List Int) → List LoopId → List LoopId
  | [], marked => marked
  | b :: rest, marked =>
    let marked :=
      if b.1 ∈ marked || areEquivalent equiv b.1 a.1 then marked
      -- The loops are tried the other way round only if the first test does not apply at all.
      else if overlaps a b then (if isStrange a b then markSpurious t marked b.1 else marked)
      else if isStrange b a then markSpurious t marked a.1
      else marked
    markAgainst t equiv a rest marked

/-- Marks the spurious loops of a list. -/
def markAll (t : LoopTables) (equiv : OrdMap LoopId (List LoopId)) :
    List (LoopId × List Int) → List LoopId → List LoopId
  | [], marked => marked
  | a :: rest, marked =>
    markAll t equiv rest (if a.1 ∈ marked then marked else markAgainst t equiv a rest marked)

/-- Takes the mark off a loop and, as far as they are marked, off the loops around it. -/
def unmark (t : LoopTables) : (fuel : Nat) → LoopId → List LoopId → List LoopId
  | 0, _, marked => marked
  | fuel + 1, k, marked =>
    if k ∈ marked then
      (t.outer.getD k []).foldl (fun marked k' => unmark t fuel k' marked) (marked.erase k)
    else marked

/-- Takes the marks off loops with no loop inside and off the loops around those. -/
def unmarkAll (t : LoopTables) (marked : List LoopId) : List LoopId :=
  t.inner.entries.foldl
    (fun marked e => if e.2.isEmpty then unmark t (t.own.size + 1) e.1 marked else marked) marked

/-- The spurious loops: those whose mark is not taken off. -/
def spuriousLoops (t : LoopTables) (equiv : OrdMap LoopId (List LoopId)) : List LoopId :=
  unmarkAll t (markAll t equiv t.own.entries [])

/-! ## Ways out of a loop -/

/-- Whether no edge leaves a set of nodes. -/
def isEndless (g : Graph) (nodes : List Int) : Bool :=
  nodes.all fun addr => (g.next addr).all (· ∈ nodes)

/-- A search backwards through a loop: the nodes tried, and the nodes found by now. -/
structure ClosingSearch where
  tried : List Int
  closing : OrdMap Int (List LoopId)

/-- Whether some way into a node could also have left the loop: some successor of a predecessor is
outside. -/
def hasSideExit (g : Graph) (nodes : List Int) (preds : List Int) : Except Fault Bool :=
  match preds with
  | [] => .ok false
  | p :: rest =>
    match g.succs.get? p with
    | none => .error (.noEdge p)
    | some next => if next.any (· ∉ nodes) then .ok true else hasSideExit g nodes rest

/-- Goes backwards from a node to the first nodes that can be missed by leaving the loop. -/
def closingFrom (g : Graph) (key : LoopId) (nodes : List Int) :
    (fuel : Nat) → Int → ClosingSearch → Except Fault ClosingSearch
  | 0, _, _ => .error .stepBound
  | fuel + 1, addr, s =>
    match g.preds.get? addr with
    | none => .error (.noEdge addr)
    | some preds => do
      if ← hasSideExit g nodes preds then
        return { s with closing := s.closing.upsert addr [] (List.insert key) }
      else if addr ∈ s.tried then return s
      else
        preds.foldlM (fun s p => closingFrom g key nodes fuel p s)
          { s with tried := addr :: s.tried }

/-- Finds where the last part of a loop begins, starting from the edges back to its start. -/
def closingOf (g : Graph) (closing : OrdMap Int (List LoopId)) (loop : LoopId × List Int) :
    Except Fault (OrdMap Int (List LoopId)) :=
  match g.preds.get? loop.1.start with
  | none => .error (.noEdge loop.1.start)
  | some preds => do
    let s ← (preds.filter (· ∈ loop.2)).foldlM
      (fun s p => closingFrom g loop.1 loop.2 (g.nodes.size + 2) p s) ⟨[loop.1.start], closing⟩
    return s.closing

/-- Forgets loops. -/
def without (m : OrdMap LoopId (List Int)) (ks : List LoopId) : OrdMap LoopId (List Int) :=
  ⟨m.entries.filter (·.1 ∉ ks)⟩

/-- The nest of the loops found, given which of them are equivalent and which are spurious. -/
def assemble (g : Graph) (found : LoopTables) (equivalents : OrdMap LoopId (List LoopId))
    (spurious : List LoopId) : Except Fault LoopNest := do
  let tables := { found with
    own := without found.own spurious
    all := without found.all spurious }
  -- The nodes that only spurious loops have count as outside.
  let inLoop := tables.own.values.flatten
  let closing ← tables.all.entries.foldlM (closingOf g) ∅
  return {
    tables, equivalents, spurious, closing
    endless := (tables.all.entries.filter fun e => isEndless g e.2).map Prod.fst
    starts := distinct (tables.all.keys.map (·.start))
    outside := g.nodes.keys.filter (· ∉ inLoop) }

end LoopNest

/-- The loop nest of a graph, with every set gone through in the order of insertion. -/
def Graph.loopNest (g : Graph) : Except Fault LoopNest := do
  let found ← g.loops
  let equivalents := LoopNest.equivalences found.own.entries ∅
  LoopNest.assemble g found equivalents (LoopNest.spuriousLoops found equivalents)

end Decompiler
