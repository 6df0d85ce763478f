import Decompiler.Tree.Edit
import Decompiler.Flow.Paths
/-!
# Gotos

Three passes that bring the gotos of a tree into line with the order in which its code stands: a
goto to where the code continues anyway is dropped, a further condition at the end of a branch is
followed by a goto to the place it leads to, and a goto is put between blocks of a branch that do
not follow each other in memory.
-/

namespace Decompiler

/-! ## Where code starts and continues -/

/-- The address that stands for no code. -/
def noAddr : Int := -1

mutual

/-- The address at which a node starts. Only blocks, gotos and jumps have one; a loop or conditional
group has none, but its first block is looked at. -/
def Node.firstAddr : Node → Except Fault Int
  | .block items => do (← firstItem items).addr
  | .ifElse jump _ _ _ _ _ _ => .ok jump.addr
  | .andIf jump _ _ _ _ => .ok jump.addr
  | .goto target _ => .ok target
  | .loop _ _ body =>
    match body with
    | [] => .error .outOfRange
    | .block items :: _ =>
      if items.isEmpty then .ok noAddr else do let _ ← (← firstItem items).addr; .ok noAddr
    | _ :: _ => .error .notABlock
  | .ifCond _ body _ => branchFirstAddr body
  | .ifGoto .. => .ok noAddr
  | .comment _ => .ok noAddr

/-- The address at which a branch starts: none, but its first node is looked at. -/
def branchFirstAddr : List Node → Except Fault Int
  | [] => .ok noAddr
  | n :: _ => do let _ ← n.firstAddr; .ok noAddr

end

/-- The branches around a place, the innermost first: the nodes of each, and the recorded position
in it. -/
abbrev Surroundings := List (List Node × Int)

/-- Whether a node is passed over when looking for the code that follows. -/
def Node.isPassedOver : Node → Bool
  | .comment _ | .ifGoto .. | .andIf .. | .ifCond .. => true
  | _ => false

/-- The address of the code that follows a branch. -/
def followingAddr : Surroundings → Except Fault Int
  | [] => .ok noAddr
  | (nodes, place) :: outer =>
    match (nodes.drop (place + 1).toNat).find? (fun n => !n.isPassedOver) with
    | some n => n.firstAddr
    | none => followingAddr outer

/-! ## Dropping gotos -/

/-- Whether a branch ends in a goto to the code that follows it. -/
def endsInNeedlessGoto (around : Surroundings) (nodes : List Node) : Except Fault Bool :=
  match nodes.getLast? with
  | some (.goto target false) => do return target = (← followingAddr around)
  | _ => .ok false

mutual

/-- Drops needless gotos inside a node; `here` are the branches around it for each recorded position
and each form of the node. -/
def Node.dropGotos (here : Node → Int → Surroundings) : Node → Edited Node
  | .ifElse jump expected place next other slot fused =>
    let again (next other : List Node) : Node := .ifElse jump expected place next other slot fused
    match endsInNeedlessGoto (here (again next other) place) next with
    | .error e => .stopped (again next other) e
    | .ok needless =>
      (branchDropGotos (here (again next other) place) needless [] next).andThen (again · other)
        fun next =>
        match endsInNeedlessGoto (here (again next other) place) other with
        | .error e => .stopped (again next other) e
        | .ok needless =>
          (branchDropGotos (here (again next other) place) needless [] other).map (again next)
  | .loop endless place body =>
    match endsInNeedlessGoto (here (.loop endless place body) place) body with
    | .error e => .stopped (.loop endless place body) e
    | .ok needless =>
      (branchDropGotos (here (.loop endless place body) place) needless [] body).map
        (.loop endless place)
  | n => .done n

/-- Drops the last node of a branch if it is needless, and needless gotos inside the others.
`before` are the nodes in front of the remaining ones. -/
def branchDropGotos (around : Surroundings) (needless : Bool) (before : List Node) :
    List Node → Edited (List Node)
  | [] => .done []
  | n :: rest =>
    if needless && rest.isEmpty then .done []
    else
      -- The surroundings of the nodes in front no longer hold the goto that will be dropped.
      let after := if needless then rest.dropLast else rest
      (n.dropGotos fun n place => (before ++ n :: after, place) :: around).andThen (· :: after)
        fun n =>
        (branchDropGotos around needless (before ++ [n]) rest).map (n :: ·)

end

/-- Drops the gotos of a tree that lead to where the code continues anyway. -/
def dropNeedlessGotos (tree : List Node) : Edited (List Node) :=
  match endsInNeedlessGoto [] tree with
  | .error e => .stopped tree e
  | .ok needless => branchDropGotos [] needless [] tree

/-! ## Gotos after a further condition -/

/-- The goto that is due at the end of a branch: to where a further condition leads. -/
def gotoDue (nodes : List Node) : List Node :=
  match nodes.getLast? with
  | some (.andIf _ _ expected _ _) => [.goto expected false]
  | _ => []

mutual

/-- Ends the branches inside a node with the gotos that are due. -/
def Node.finishConditions : Node → Node
  | .ifElse jump expected place next other slot fused =>
    .ifElse jump expected place (branchFinishConditions next ++ gotoDue next)
      (branchFinishConditions other ++ gotoDue other) slot fused
  | .loop endless place body => .loop endless place (branchFinishConditions body ++ gotoDue body)
  | n => n

/-- Ends the branches inside the nodes of a branch with the gotos that are due. -/
def branchFinishConditions : List Node → List Node
  | [] => []
  | n :: rest => n.finishConditions :: branchFinishConditions rest

end

/-- Puts a goto after every further condition that ends a branch. -/
def finishConditions (tree : List Node) : List Node := branchFinishConditions tree ++ gotoDue tree

/-! ## Gotos between blocks -/

/-- Where the code of a block runs on to, if it does: the address after its last instruction, if
that is not a jump and has a successor. -/
def runsOnTo (uncond : List Int) (succs : Edges) (items : List Item) : Except Fault (Option Int) :=
  do
  let item ← lastItem items
  match item with
  | .insn i =>
    return if i.addr ∉ uncond && succs.contains i.addr then some i.next else none
  | _ => throw .syntheticItem

/-- The goto that is needed in front of a block: to where the block before it runs on, if that is
not the block's own address. -/
def gotoBefore (uncond : List Int) (succs : Edges) (previous : Option (List Item))
    (items : List Item) : Except Fault (Option Int) := do
  match previous with
  | none => return none
  | some before =>
    match ← runsOnTo uncond succs before with
    | none => return none
    | some next =>
      let addr ← (← firstItem items).addr
      return if next = addr then none else some next

/-- Puts gotos in front of the nodes at the given positions, from the first to the last. Every
position is counted in the list as it is by then. -/
def insertGotos (nodes : List Node) (gotos : List (Nat × Int)) : List Node :=
  gotos.foldl (fun nodes g => nodes.insertIdx g.1 (.goto g.2 false)) nodes

mutual

/-- Puts gotos between blocks inside a node. -/
def Node.linkBlocks (uncond : List Int) (succs : Edges) : Node → Edited Node
  | .ifElse jump expected place next other slot fused =>
    let again (next other : List Node) : Node := .ifElse jump expected place next other slot fused
    let linked := branchLinkBlocks uncond succs 0 none next
    match linked.fault with
    | some e => .stopped (again linked.value.1 other) e
    | none =>
      let next := insertGotos linked.value.1 linked.value.2
      let linked := branchLinkBlocks uncond succs 0 none other
      match linked.fault with
      | some e => .stopped (again next linked.value.1) e
      | none => .done (again next (insertGotos linked.value.1 linked.value.2))
  | .loop endless place body =>
    let linked := branchLinkBlocks uncond succs 0 none body
    match linked.fault with
    | some e => .stopped (.loop endless place linked.value.1) e
    | none => .done (.loop endless place (insertGotos linked.value.1 linked.value.2))
  | n => .done n

/-- Puts gotos between blocks inside the nodes of a branch, and gives the gotos needed in the branch
itself with their positions. `previous` is the block right before the remaining nodes. -/
def branchLinkBlocks (uncond : List Int) (succs : Edges) (k : Nat) (previous : Option (List Item)) :
    List Node → Edited (List Node × List (Nat × Int))
  | [] => .done ([], [])
  | .block items :: rest =>
    match gotoBefore uncond succs previous items with
    | .error e => .stopped (.block items :: rest, []) e
    | .ok goto? =>
      (branchLinkBlocks uncond succs (k + 1) (some items) rest).map fun (nodes, gotos) =>
        (.block items :: nodes, (goto?.map fun a => (k, a)).toList ++ gotos)
  | n :: rest =>
    (n.linkBlocks uncond succs).andThen (fun n => (n :: rest, [])) fun n =>
      (branchLinkBlocks uncond succs (k + 1) none rest).map fun (nodes, gotos) =>
        (n :: nodes, gotos)

end

/-- Puts gotos between blocks that do not follow each other in memory. -/
def linkBlocks (uncond : List Int) (succs : Edges) (tree : List Node) : Edited (List Node) :=
  let linked := branchLinkBlocks uncond succs 0 none tree
  match linked.fault with
  | some e => .stopped linked.value.1 e
  | none => .done (insertGotos linked.value.1 linked.value.2)

/-- The tree with the gotos that are needed and no others. -/
def bringGotosInLine (uncond : List Int) (succs : Edges) (tree : List Node) :
    Except Fault (List Node) := do
  let tree ← (dropNeedlessGotos tree).result
  (linkBlocks uncond succs (finishConditions tree)).result

end Decompiler
