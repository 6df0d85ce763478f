import Decompiler.Tree.Edit
/-!
# Conditional instructions on ARM

A block in which the condition of the instructions changes is cut into runs of equal conditions; the
runs whose condition is not `AL` become conditional groups. A block of one condition throughout is
left as it is.
-/

namespace Decompiler.Arm

/-- The condition of an item; only machine instructions have one. -/
def conditionOf : Item → Except Fault String
  | .insn i => .ok i.condition
  | _ => .error .syntheticItem

/-- Cuts items into runs of equal conditions; `cond` and `run` are those of the current run,
reversed. -/
def runsFrom (cond : String) (run : List Item) :
    List Item → Except Fault (List (String × List Item))
  | [] => .ok [(cond, run.reverse)]
  | item :: rest => do
    let c ← conditionOf item
    if c = cond then runsFrom cond (item :: run) rest
    else return (cond, run.reverse) :: (← runsFrom c [item] rest)

/-- The runs of equal conditions of a block. -/
def runs (items : List Item) : Except Fault (List (String × List Item)) :=
  match items with
  | [] => .error .emptyBlock
  | item :: rest => do runsFrom (← conditionOf item) [item] rest

/-- The node of a run. -/
def runNode (r : String × List Item) : Node :=
  if r.1 = "AL" then .block r.2 else .ifCond (some r.1) [.block r.2] none

/-- The nodes that replace a block. -/
def guarded (items : List Item) : Except Fault (List Node) := do
  match ← runs items with
  | [_] => return [.block items]
  | rs => return rs.map runNode

mutual

/-- Groups conditional instructions inside a node. -/
def groupNode : Node → Edited Node
  | .ifElse jump expected place next other slot fused =>
    let again (next other : List Node) : Node := .ifElse jump expected place next other slot fused
    (groupBranch other).andThen (fun r => again next r.1) fun r =>
      let other := r.2
      (groupBranch next).andThen (fun r => again r.1 other) fun r => .done (again r.2 other)
  | .loop endless place body =>
    (groupBranch body).andThen (fun r => .loop endless place r.1) fun r =>
      .done (.loop endless place r.2)
  | n => .done n

/-- Groups conditional instructions in a branch: the nodes with only their insides changed, and the
nodes with the blocks of the branch cut up as well. The former are what is left if the pass
fails. -/
def groupBranch : List Node → Edited (List Node × List Node)
  | [] => .done ([], [])
  | .block items :: rest =>
    match guarded items with
    | .error e => .stopped (.block items :: rest, []) e
    | .ok nodes => (groupBranch rest).map fun r => (.block items :: r.1, nodes ++ r.2)
  | n :: rest =>
    (groupNode n).andThen (fun n => (n :: rest, [])) fun n =>
      (groupBranch rest).map fun r => (n :: r.1, n :: r.2)

end

/-- Groups the conditional instructions of a tree. -/
def groupConditions (tree : List Node) : Edited (List Node) :=
  (groupBranch tree).andThen Prod.fst fun r => .done r.2

end Decompiler.Arm
