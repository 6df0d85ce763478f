import Decompiler.Tree.Draft
import Decompiler.Tree.JoinPoint
/-!
# Structuring a flow graph

The graph is walked from its entry, and every node is put into a branch of the draft. A node with
several predecessors is put off until all that lead to it have arrived; it then goes into the least
nested of the branches they came from, and the others get a goto. A conditional jump becomes an exit
from a loop, a further condition of the branch it stands in, or a branch in two; the start of a loop
opens a loop.
-/

namespace Decompiler

/-- A loop that is open: the branch that holds it, and its key. -/
structure LoopFrame where
  branch : Nat
  id : LoopId
  deriving DecidableEq, Repr

/-- A node to be placed: the branch to put it in, the loops open there, the innermost first, the
node it is reached from, and where the other way of the condition in force leads. -/
structure Task where
  branch : Option Nat
  loops : List LoopFrame
  source : Option Int
  addr : Int
  otherWay : Option Int
  deriving DecidableEq, Repr

/-- A node that was put off: the branches that lead to it, with the loop starts in force there, and
the predecessors still to come. -/
structure Pending where
  branches : List Nat
  awaited : List Int
  loopStarts : List Int
  deriving DecidableEq, Repr

/-- A node that was put off, with one more way to it. -/
def Pending.addWay (p : Pending) (b : Nat) (source : Option Int) (loopStart : Int) : Pending :=
  ⟨p.branches ++ [b], p.awaited.filter (fun q => some q ≠ source), p.loopStarts ++ [loopStart]⟩

/-- The state of a structuring. -/
structure Build where
  draft : Draft
  tasks : List Task
  visited : List Int
  pending : OrdMap Int Pending
  labels : OrdMap Int String
  memo : PathMemo

/-- An operation on a structuring; labels given before a failure are kept. -/
abbrev Structuring := EStateM Fault Build

namespace Structuring

/-- What is structured: the architecture, the graph with its loops, and whether further conditions
are written as such. -/
structure Subject where
  arch : Arch
  graph : Graph
  nest : LoopNest
  furtherConditions : Bool

/-- Adds a node to a branch. -/
def put (b : Nat) (n : DraftNode) : Structuring Unit :=
  modify fun s => { s with draft := s.draft.add b n }

/-- Adds a node to be placed next. -/
def push (t : Task) : Structuring Unit := modify fun s => { s with tasks := t :: s.tasks }

/-- Gives an address a label. -/
def label (addr : Int) (text : String) : Structuring Unit :=
  modify fun s => { s with labels := s.labels.insert addr text }

/-- Makes a branch inside another one, for the construct that is added to it next. -/
def branchIn (b level : Nat) : Structuring Nat :=
  modifyGet fun s =>
    let (n, draft) := s.draft.newBranch (some b) level (s.draft.nodes b).length
    (n, { s with draft })

/-- Makes a branch that no construct will hold, for code that is placed elsewhere. -/
def shadowBranch : Structuring Nat :=
  modifyGet fun s =>
    let (n, draft) := s.draft.newBranch none Draft.shadowLevel (-1)
    (n, { s with draft })

/-! ## Nodes with several predecessors -/

/-- Of the branches that lead to a node, the position of the least nested one. -/
def leastNested (draft : Draft) (spurious : List LoopId) (addr : Int) :
    (k : Nat) → List (Nat × Int) → Option (Nat × Nat) → Option (Nat × Nat)
  | _, [], best => best
  | k, (b, loopStart) :: rest, best =>
    let best :=
      if (⟨loopStart, addr⟩ : LoopId) ∈ spurious then best
      else
        match best with
        | none => some (k, b)
        -- Of branches on one level, the first stays.
        | some (_, b') => if draft.level b < draft.level b' then some (k, b) else best
    leastNested draft spurious addr (k + 1) rest best

/-- Ends a branch with a goto, unless its last node leads there already. -/
def endWithGoto (uncond : List Int) (addr : Int) (draft : Draft) (b : Nat) : Draft :=
  match (draft.nodes b).getLast? with
  | none => draft.add b (.goto addr)
  | some (.goto target) => if target = addr then draft else draft.add b (.goto addr)
  | some (.block insns) =>
    if insns.getLast?.any (·.addr ∈ uncond) then draft else draft.add b (.goto addr)
  | some _ => draft.add b (.goto addr)

/-- Puts a node off. -/
def putOff (addr : Int) (p : Pending) : Structuring (Option Nat) := do
  modify fun s => { s with pending := s.pending.insert addr p }
  return none

/-- Ends the waiting of a node: gives the least nested of the branches that lead to it, and ends the
others with a goto. -/
def assemble (subj : Subject) (addr : Int) (p : Pending) : Structuring (Option Nat) := do
  let s ← get
  match leastNested s.draft subj.nest.spurious addr 0 (p.branches.zip p.loopStarts) none with
  | none => throw .onlySpurious
  | some (k, best) =>
    let draft := (p.branches.eraseIdx k).foldl (endWithGoto subj.graph.uncondJumps addr) s.draft
    set { s with draft, pending := s.pending.erase addr }
    return some best

/-- Puts a node off again or ends its waiting, when all its predecessors have come. -/
def putOffAgain (subj : Subject) (addr : Int) (p : Pending) : Structuring (Option Nat) :=
  if p.awaited.isEmpty then assemble subj addr p else putOff addr p

/-- Puts a node off on its first arrival, unless no other predecessor is waited for. -/
def firstArrival (subj : Subject) (scope : Scope) (b : Nat) (source : Option Int) (addr : Int) :
    Structuring (Option Nat) :=
  let awaited := scope.awaited subj.graph subj.nest addr
  if 1 < awaited.length then
    match source with
    | some q =>
      if q ∈ awaited then putOff addr ⟨[b], awaited.erase q, [scope.start]⟩
        else throw (.notAwaited addr)
    | none => throw (.notAwaited addr)
  else return some b

/-- Puts a node off, or notes one more way to it. Gives the branch to put it in when all have
come. -/
def rendezvous (subj : Subject) (scope : Scope) (b : Nat) (source : Option Int) (addr : Int) :
    Structuring (Option Nat) := do
  let s ← get
  match s.pending.get? addr with
  | some p => putOffAgain subj addr (p.addWay b source scope.start)
  | none => firstArrival subj scope b source addr

/-- The branch to put a node in; none if it is put off. -/
def gather (subj : Subject) (scope : Scope) (b : Nat) (source : Option Int) (addr : Int) :
    Structuring (Option Nat) :=
  if 1 < (subj.graph.preds.getD addr []).length then rendezvous subj scope b source addr
  else return some b

/-- Foresees that a node will be reached: it goes into this branch or a less nested one. -/
def foresee (subj : Subject) (scope : Scope) (b : Nat) (addr : Int) : Structuring Unit :=
  modify fun s =>
    if 1 < (subj.graph.preds.getD addr []).length && !s.pending.contains addr then
      { s with pending := s.pending.insert addr ⟨[b], scope.awaited subj.graph subj.nest addr,
        [scope.start]⟩ }
    else s

/-- Takes away a goto at the end of a branch that leads to the node which is put there next. -/
def dropGotoTo (b : Nat) (addr : Int) : Structuring Unit :=
  modify fun s =>
    let nodes := s.draft.nodes b
    if 1 < nodes.length && nodes.getLast? = some (.goto addr) then
      { s with draft := s.draft.dropLast b } else s

/-! ## Loops -/

/-- Whether an equivalent of the loop at a node waits to be entered at another start. -/
def entersElsewhere (subj : Subject) (pending : OrdMap Int Pending) (loopStart addr : Int) : Bool :=
  match subj.nest.equivalents.get? ⟨loopStart, addr⟩ with
  | none => false
  | some others => pending.entries.any fun e => e.2.loopStarts.any fun i => ⟨i, e.1⟩ ∈ others

/-- Leaves the loops that a node is not part of; gives the branch and the loops that are left. -/
def leaveLoops (subj : Subject) (addr : Int) :
    List LoopFrame → Option Nat → Except Fault (Option Nat × List LoopFrame)
  | [], b => .ok (b, [])
  | frame :: outer, b =>
    match subj.nest.tables.all.get? frame.id with
    | none => .error (.noLoop frame.id.start)
    | some nodes =>
      if addr ∈ nodes then .ok (b, frame :: outer)
        else leaveLoops subj addr outer (some frame.branch)

/-- The scope inside the open loops. -/
def scopeOf (subj : Subject) : List LoopFrame → Scope
  | [] => ⟨none, subj.graph.entry, none⟩
  | frame :: _ => ⟨some frame.id, frame.id.start, some (subj.nest.tables.all.getD frame.id [])⟩

/-- Whether a node starts a loop that is not the loop in force under another start. -/
def startsLoop (subj : Subject) (scope : Scope) (addr : Int) : Bool :=
  subj.nest.tables.all.contains ⟨scope.start, addr⟩ &&
    match scope.loop with
    | none => true
    | some k => !LoopNest.areEquivalent subj.nest.equivalents ⟨k.outer, addr⟩ k

/-- Opens the loop that starts at a node. -/
def openLoop (subj : Subject) (scope : Scope) (b level : Nat) (addr : Int)
    (loops : List LoopFrame) : Structuring (Nat × List LoopFrame) := do
  label addr ("loop_0x" ++ Text.hexSigned 1 addr)
  let id : LoopId := ⟨scope.start, addr⟩
  let body ← branchIn b level
  put b (.loop (id ∈ subj.nest.endless) body)
  return (body, ⟨b, id⟩ :: loops)

/-! ## Conditional jumps -/

/-- A conditional jump to be placed: its block, both ways out of it, and the task that leads to
it. -/
structure Fork where
  jump : Insn
  slot : Option Insn
  next : Int
  target : Int
  branch : Nat
  level : Nat
  task : Task

/-- The task of one way out of a fork. -/
def Fork.way (f : Fork) (branch : Option Nat) (addr : Int) : Task :=
  { f.task with branch, source := some f.jump.addr, addr }

/-- Places a jump one way of which leaves the loop in force. -/
def leaveBy (f : Fork) (cond : Option String) (out inside : Int) : Structuring Unit := do
  let s ← get
  push (f.way (s.draft.parent f.branch) out)
  push (f.way (some f.branch) inside)
  put f.branch (.ifGoto f.jump cond out f.slot)

/-- Places a jump one way of which leads to the other way of the condition in force. The way there
goes into a branch of its own that is not part of the tree, since the code is placed by that
condition. -/
def narrow (f : Fork) (cond : Option String) (out inside : Int) : Structuring Unit := do
  put f.branch (.andIf f.jump cond inside f.slot)
  let shadow ← shadowBranch
  push (f.way (some shadow) out)
  push (f.way (some f.branch) inside)

/-- The node at which the two ways of a fork meet, if there is one. -/
def findJoint (subj : Subject) (scope : Scope) (f : Fork) : Structuring (Option Int) := do
  let s ← get
  match subj.graph.joinPoint subj.nest scope s.memo f.jump.addr with
  | .error e => throw e
  | .ok (joint, memo) =>
    set { s with memo }
    return joint.filter fun a => (⟨scope.start, a⟩ : LoopId) ∉ subj.nest.spurious

/-- Foresees the node at which the two ways of a fork meet. -/
def foreseeJoint (subj : Subject) (scope : Scope) (b : Nat) (joint : Option Int) :
    Structuring Unit :=
  match joint with
  | some addr => foresee subj scope b addr
  | none => pure ()

/-- The task of one way out of a fork that branches in two. -/
def Fork.half (f : Fork) (branch : Nat) (addr : Int) : Task :=
  { f.way (some branch) addr with otherWay := some f.target }

/-- The branch for the way of the taken jump: one of its own only if the two ways meet, and do not
meet there. -/
def Fork.takenBranch (f : Fork) (joint : Option Int) (ifTaken : Nat) : Nat :=
  if joint.any (· ≠ f.target) then ifTaken else f.branch

/-- Places a jump as a branch in two. -/
def branchInTwo (subj : Subject) (scope : Scope) (f : Fork) : Structuring Unit := do
  let joint ← findJoint subj scope f
  let ifNext ← branchIn f.branch (f.level + 1)
  let ifTaken ← branchIn f.branch (f.level + 1)
  foreseeJoint subj scope f.branch joint
  -- The task pushed last is done first: the way of the taken jump.
  push (f.half ifNext f.next)
  push (f.half (f.takenBranch joint ifTaken) f.target)
  put f.branch (.ifElse f.jump (joint.getD f.target) ifNext ifTaken f.slot)

/-- Places a conditional jump. -/
def placeFork (subj : Subject) (scope : Scope) (f : Fork) : Structuring Unit := do
  let inverted := subj.arch.invertedCond f.jump
  let direct := some (subj.arch.condOf f.jump)
  let nextLeaves := scope.loop.isSome && !scope.nodes.holds f.next
  let targetLeaves := scope.loop.isSome && !scope.nodes.holds f.target
  if nextLeaves && targetLeaves then throw (.strayConditional f.jump.addr)
  else if nextLeaves then leaveBy f inverted f.next f.target
  else if targetLeaves then leaveBy f direct f.target f.next
  else if subj.furtherConditions && f.task.otherWay = some f.target then
    narrow f inverted f.target f.next
  else if subj.furtherConditions && f.task.otherWay = some f.next then
    narrow f direct f.next f.target
  else branchInTwo subj scope f

/-! ## Placing nodes -/

/-- Whether a goto is needed to lead from the end of a branch to a node that has been placed: not if
the end of the branch stands for going round the loop, or if the code jumps anyway. -/
def needsGoto (subj : Subject) (scope : Scope) (nodes : List DraftNode) (addr : Int) :
    Except Fault Bool :=
  if addr = scope.start then .ok false
  else
    match nodes.getLast? with
    -- It is the first instruction of the block that is asked, not the last.
    | some (.block (i :: _)) => do return !(← subj.arch.isUncondJump i)
    | _ => .ok true

/-- Leads to a node that has been placed, by a goto if that is needed. -/
def referBack (subj : Subject) (scope : Scope) (b : Nat) (addr : Int) : Structuring Unit := do
  let s ← get
  match needsGoto subj scope (s.draft.nodes b) addr with
  | .error e => throw e
  | .ok true => put b (.goto addr)
  | .ok false => return ()

/-- Places a node that has not been placed yet and all of whose predecessors have come. -/
def placeNode (subj : Subject) (scope : Scope) (b level : Nat) (t : Task) (insns : List Insn) :
    Structuring Unit := do
  modify fun s => { s with visited := t.addr :: s.visited }
  match subj.graph.succs.get? t.addr, insns with
  | none, _ => do
    label t.addr ("ret_0x" ++ Text.hexSigned 1 t.addr)
    put b (.block insns)
  | some [next, target], jump :: rest =>
    let slot := match rest with
      | [i] => some i
      | _ => none
    placeFork subj scope ⟨jump, slot, next, target, b, level, t⟩
  | some (next :: _), _ => do
    put b (.block insns)
    push { t with branch := some b, source := some t.addr, addr := next }
  | some [], _ => throw .outOfRange

/-- Places a node for which the waiting is over, in a loop of its own if it starts one. -/
def settle (subj : Subject) (scope : Scope) (b level : Nat) (t : Task) (loops : List LoopFrame)
    (insns : List Insn) : Structuring Unit := do
  dropGotoTo b t.addr
  if startsLoop subj scope t.addr then
    let (body, loops) ← openLoop subj scope b (level + 1) t.addr loops
    placeNode subj (scopeOf subj loops) body (level + 1) { t with loops, otherWay := none } insns
  else placeNode subj scope b level { t with loops } insns

/-- Leads to a node that has been placed, puts one off, or places it. -/
def arrive (subj : Subject) (t : Task) (b : Nat) (loops : List LoopFrame) (insns : List Insn) :
    Structuring Unit := do
  let s ← get
  let scope := scopeOf subj loops
  if t.addr ∈ s.visited then referBack subj scope b t.addr
  else
    match ← gather subj scope b t.source t.addr with
    | none => return ()
    -- The level is that of the branch the task came by, even if another one is chosen.
    | some best => settle subj scope best (s.draft.level b) t loops insns

/-- Whether a task is not followed: it leads into a loop that is none of its own, or one that is
entered elsewhere. -/
def turnsAway (subj : Subject) (pending : OrdMap Int Pending) (t : Task) : Bool :=
  let loopStart := match t.loops with
    | [] => subj.graph.entry
    | frame :: _ => frame.id.start
  (⟨loopStart, t.addr⟩ : LoopId) ∈ subj.nest.spurious ||
    entersElsewhere subj pending loopStart t.addr

/-- Places the node of a task, puts it off, or leads to where it is. -/
def place (subj : Subject) (t : Task) : Structuring Unit := do
  let s ← get
  if turnsAway subj s.pending t then return ()
  else
    match subj.graph.nodes.get? t.addr with
    | none => throw (.noEdge t.addr)
    | some insns =>
      match leaveLoops subj t.addr t.loops t.branch with
      | .error e => throw e
      | .ok (none, _) => throw .noBranch
      | .ok (some b, loops) => arrive subj t b loops insns

/-- Places nodes until none is left to place. Every node is placed once and leads to at most two
others, which bounds the number of tasks. -/
def placeAll (subj : Subject) : (fuel : Nat) → Structuring Unit
  | 0 => throw .stepBound
  | fuel + 1 => do
    let s ← get
    match s.tasks with
    | [] => return ()
    | t :: tasks => do
      set { s with tasks }
      place subj t
      placeAll subj fuel

end Structuring

/-- A structuring before its first step. -/
def Build.start (entry : Int) (labels : OrdMap Int String) (memo : PathMemo) : Build :=
  { draft := Draft.start
    tasks := [⟨some Draft.head, [], none, entry, none⟩]
    visited := []
    pending := ∅
    labels, memo }

/-- Structures a graph; the draft is left in the state. -/
def Structuring.build (subj : Structuring.Subject) : Structuring Unit :=
  Structuring.placeAll subj (2 * subj.graph.nodes.size + 3)

end Decompiler
