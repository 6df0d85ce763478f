import Decompiler.Flow.Graph
/-!
# Loops

A loop is known by its start and by the start of the loop, or the entry of the function, from which
it was found. The exploration walks the graph from there and stops in front of every node that has
other predecessors still to come. When nothing can move, the nodes that wait are tried as loop
starts: a waiting node on a path to itself starts a loop, and the predecessors inside the loop are
no longer waited for. A node for which nothing is left to wait starts a loop that is then explored
in its own right, to find the loops inside it.
-/

namespace Decompiler

/-- A loop, by the start of the loop around it (or the function's entry) and by its own start. -/
structure LoopId where
  outer : Int
  start : Int
  deriving DecidableEq, Repr

/-- The loops found: the nodes of each without and with the loops inside it, and which loop lies
directly in which. -/
structure LoopTables where
  own : OrdMap LoopId (List Int)
  all : OrdMap LoopId (List Int)
  inner : OrdMap LoopId (List LoopId)
  outer : OrdMap LoopId (List LoopId)
  deriving DecidableEq, Repr

/-- Nothing found yet. -/
def LoopTables.empty : LoopTables := ⟨∅, ∅, ∅, ∅⟩

/-- What the exploration of one loop does not look beyond: the loop's nodes; none for the whole
function. -/
abbrev Region := Option (List Int)

def Region.holds (r : Region) (addr : Int) : Bool := r.all (addr ∈ ·)

namespace Exploration

/-- Predecessors that a node still waits for, by node. -/
abbrev Waiting := OrdMap Int (List Int)

/-- A walk under way: the edges to follow, the last one first, the nodes visited, the nodes for
which the waiting is over, and the nodes that wait. An edge from nowhere leads to a node whose
waiting is over. -/
structure Walk where
  stack : List (Option Int × Int)
  visited : List Int
  done : List Int
  waiting : Waiting

/-- Whether a walk stops in front of a node: one with several predecessors, or one outside of the
region. -/
def mustWait (g : Graph) (region : Region) (w : Walk) (addr : Int) : Bool :=
  match g.preds.get? addr with
  | none => false
  | some preds => addr ∉ w.done && (1 < preds.length || !region.holds addr)

/-- Notes that an edge has arrived at a node that waits. -/
def arrive (g : Graph) (w : Walk) (source : Option Int) (addr : Int) : Except Fault Walk :=
  match w.waiting.get? addr with
  | some missing =>
    .ok { w with waiting := w.waiting.insert addr (missing.filter (fun p => some p ≠ source)) }
  | none =>
    -- The first edge to arrive fixes what the node waits for.
    let preds := distinct (g.preds.getD addr [])
    match source with
    | some p =>
      if p ∈ preds then .ok { w with waiting := w.waiting.insert addr (preds.erase p) }
      else .error (.notAwaited addr)
    | none => .error (.notAwaited addr)

/-- Enters a node and puts its edges on the stack, except those to the loops around; gives whether
there is one. -/
def enter (g : Graph) (around : List Int) (w : Walk) (addr : Int) : Bool × Walk :=
  if addr ∈ w.visited then (false, w)
  else
    let next := (g.next addr).filter (· ∉ around)
    (!next.isEmpty,
      { w with
        visited := addr :: w.visited
        stack := (next.map fun n => (some addr, n)).reverse ++ w.stack })

/-- Follows edges until none is left on the stack; gives whether any was put there. Every node puts
its edges on the stack once, which bounds the number of steps. -/
def drain (g : Graph) (around : List Int) (region : Region) :
    (fuel : Nat) → (moved : Bool) → Walk → Except Fault (Bool × Walk)
  | 0, _, _ => .error .stepBound
  | fuel + 1, moved, w =>
    match w.stack with
    | [] => .ok (moved, w)
    | (source, addr) :: stack =>
      let w := { w with stack }
      if mustWait g region w addr then do
        drain g around region fuel moved (← arrive g w source addr)
      else
        let (entered, w) := enter g around w addr
        drain g around region fuel (moved || entered) w

/-- Lets a node of the region go on if it has nothing left to wait for. -/
def letGo (region : Region) (w : Walk) (e : Int × List Int) : Walk :=
  if region.holds e.1 && e.2.isEmpty then
    { w with
      waiting := w.waiting.erase e.1
      done := w.done.insert e.1
      stack := (none, e.1) :: w.stack }
  else w

/-- Lets the nodes of the region go on that have nothing left to wait for. -/
def release (region : Region) (w : Walk) : Walk := w.waiting.entries.foldl (letGo region) w

/-- Tries a waiting node as the start of a loop: adds it to the starts found if a path leads back to
it. -/
def tryStart (g : Graph) (entry : Int) (around : List Int) (region : Region)
    (acc : List Int × LoopTables) (addr : Int) : List Int × LoopTables :=
  if !region.holds addr || acc.2.own.contains ⟨entry, addr⟩ then acc
  else
    match g.succs.paths addr addr around with
    | [] => acc
    | nodes => (acc.1 ++ [addr], { acc.2 with own := acc.2.own.insert ⟨entry, addr⟩ nodes })

/-- Tries the waiting nodes of the region as starts of loops; gives the starts found and the
tables. -/
def findLoops (g : Graph) (entry : Int) (around : List Int) (region : Region) (waiting : Waiting)
    (t : LoopTables) : List Int × LoopTables :=
  waiting.keys.foldl (tryStart g entry around region) ([], t)

/-- Stops waiting, in front of a loop, for the predecessors inside of it. If nothing is left to wait
for by that, the loop is ready and no longer waits. -/
def openLoop (entry : Int) (t : LoopTables) (acc : List Int × Waiting) (addr : Int) :
    List Int × Waiting :=
  let missing := acc.2.getD addr []
  let rest := missing.filter (· ∉ t.own.getD ⟨entry, addr⟩ [])
  -- A node that waited for nothing before is no loop to explore; `release` lets it go on.
  if rest.length < missing.length && rest.isEmpty then (acc.1 ++ [addr], acc.2.erase addr)
  else (acc.1, acc.2.insert addr rest)

/-- Stops waiting, in front of the loops that were found, for the predecessors inside of them. Gives
the loops for which nothing is left to wait. -/
def openLoops (entry : Int) (t : LoopTables) (found : List Int) (waiting : Waiting) :
    List Int × Waiting :=
  found.foldl (openLoop entry t) ([], waiting)

/-- Stops waiting, inside a region, for predecessors outside of it. -/
def dropOutside (region : Region) (waiting : Waiting) : Waiting :=
  ⟨waiting.entries.map fun e => (e.1, if region.holds e.1 then e.2.filter region.holds else e.2)⟩

/-- One search for loops among the waiting nodes: the loops that can be explored next, all starts
found, and the new state. -/
def searchLoops (g : Graph) (entry : Int) (around : List Int) (region : Region) (waiting : Waiting)
    (t : LoopTables) : List Int × List Int × Waiting × LoopTables :=
  let (found, t) := findLoops g entry around region waiting t
  let (ready, waiting) := openLoops entry t found waiting
  (ready, found, dropOutside region waiting, t)

/-- Takes a loop into the loop `key` if it was found from there and lies in it. -/
def takeIn (entry : Int) (key : LoopId) (t : LoopTables) (other : LoopId) :
    Except Fault LoopTables :=
  if other ≠ key && other.outer = key.start && other.start ≠ entry && other.start ∈
    t.all.getD key [] then
    match t.all.get? other with
    | none => .error (.noLoop other.start)
    | some nodes =>
      .ok { t with
        outer := t.outer.upsert other [] (List.insert key)
        inner := t.inner.upsert key [] (List.insert other)
        all := t.all.insert key (unite (t.all.getD key []) nodes) }
  else .ok t

/-- Records the loop at `start`: its nodes together with those of the loops found from it, which are
the ones that lie directly in it. -/
def recordLoop (entry : Int) (t : LoopTables) (start : Int) : Except Fault LoopTables :=
  let key : LoopId := ⟨entry, start⟩
  t.own.keys.foldlM (takeIn entry key)
    { t with all := t.all.insert key (t.own.getD key []), inner := t.inner.insert key [] }

/-- Explores the loops that are ready, then those that become ready by that; `explore` explores one
loop. Every round finds a new loop start, so there are no more rounds than nodes. -/
def exploreReady (g : Graph) (entry : Int) (around : List Int) (region : Region)
    (explore : Int → Waiting → LoopTables → Except Fault (Waiting × LoopTables)) :
    (fuel : Nat) → (ready starts : List Int) → Waiting → LoopTables →
      Except Fault (List Int × Waiting × LoopTables)
  | _, [], starts, waiting, t => .ok (starts, waiting, t)
  | 0, _ :: _, _, _, _ => .error .stepBound
  | fuel + 1, ready, starts, waiting, t => do
    let (waiting, t) ← ready.foldlM (fun (waiting, t) addr => explore addr waiting t) (waiting, t)
    let (ready, found, waiting, t) := searchLoops g entry around region waiting t
    exploreReady g entry around region explore fuel ready (starts ++ found) waiting t

/-- The main loop of an exploration: walk; when nothing moves, look for loops and explore them; then
let nodes go on that have nothing left to wait for. Gives the starts of the loops found. Every round
visits a node or ends a node's waiting. -/
def rounds (g : Graph) (entry : Int) (around : List Int) (region : Region)
    (explore : Walk → Int → Waiting → LoopTables → Except Fault (Waiting × LoopTables)) :
    (fuel : Nat) → Walk → (starts : List Int) → LoopTables →
      Except Fault (List Int × Waiting × LoopTables)
  | 0, _, _, _ => .error .stepBound
  | fuel + 1, w, starts, t => do
    let (moved, w) ← drain g around region (w.stack.length + g.edgeCount + 1) false w
    if moved then rounds g entry around region explore fuel (release region w) starts t
    else
      let (ready, found, waiting, t) := searchLoops g entry around region w.waiting t
      let (starts, waiting, t) ←
        exploreReady g entry around region (explore w)
        (g.nodes.size + 1) ready (starts ++ found) waiting t
      let w := release region { w with waiting }
      if w.stack.isEmpty then return (starts, w.waiting, t)
      else rounds g entry around region explore fuel w starts t

/-- Explores from a loop start or the function's entry. `around` are the starts of the loops around,
which are not entered again; each level of the recursion adds one, which bounds the depth. -/
def explore (g : Graph) :
    (depth : Nat) → (entry : Int) → (around : List Int) → (visited : List Int) →
    (done : List Int) → Region → Waiting → LoopTables → Except Fault (Waiting × LoopTables)
  | 0, _, _, _, _, _, _, _ => .error .stepBound
  | depth + 1, entry, around, visited, done, region, waiting, t => do
    let w : Walk :=
      { stack := ((g.next entry).map fun n => (some entry, n)).reverse
        visited := visited.insert entry
        done, waiting }
    -- A loop is explored with its own nodes as the region, so what lies outside is not waited for.
    let inside : Walk → Int → Waiting → LoopTables → Except Fault (Waiting × LoopTables) :=
      fun w addr waiting t =>
        explore g depth addr (around.insert addr) (w.visited.insert addr) w.done
          (some (t.own.getD ⟨entry, addr⟩ [])) waiting t
    let (starts, waiting, t) ←
      rounds g entry around region inside (2 * g.nodes.size + 2) w [] t
    let t ← (distinct starts).foldlM (recordLoop entry) t
    return (waiting, t)

end Exploration

/-- All loops of a graph. -/
def Graph.loops (g : Graph) : Except Fault LoopTables := do
  let (_, t) ← Exploration.explore g (g.nodes.size + 2) g.entry [] [] [] none ∅ LoopTables.empty
  return t

end Decompiler
