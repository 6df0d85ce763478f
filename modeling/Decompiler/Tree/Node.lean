import Decompiler.Instruction
/-!
# Structured code

A function as a tree of blocks, branches, loops and gotos. A branch is a list of nodes; every node
that holds branches records the position it had in the list it was put into.
-/

namespace Decompiler

/-- A member of a block: an instruction, a gap left by one that was absorbed, or a pseudo
instruction that stands for several. -/
inductive Item where
  | insn (i : Insn)
  | gap
  | pseudo (text : String) (parts : List Insn)
  deriving DecidableEq, Repr

/-- A node of structured code. In the constructs that come from a jump, `slot` is the instruction in
its delay slot and `fused` the comparison that is shown in the condition. -/
inductive Node where
  | block (items : List Item)
  /-- A jump to an address; `keep` protects it from removal. -/
  | goto (target : Int) (keep : Bool)
  | comment (text : String)
  /-- Leave for an address if a condition holds. -/
  | ifGoto (jump : Insn) (cond : Option String) (target : Int) (slot fused : Option Insn)
  /-- Go on, to the expected address, only if a further condition holds. -/
  | andIf (jump : Insn) (cond : Option String) (expected : Int) (slot fused : Option Insn)
  /-- Instructions that take effect under a condition. -/
  | ifCond (cond : Option String) (body : List Node) (fused : Option Insn)
  /-- A branch in two: `next` if the jump is not taken and `other` if it is. -/
  | ifElse (jump : Insn) (expected : Int) (place : Int) (next other : List Node)
    (slot fused : Option Insn)
  | loop (endless : Bool) (place : Int) (body : List Node)
  deriving Repr

namespace Item

/-- The machine instruction of an item. -/
def insn? : Item → Option Insn
  | insn i => some i
  | _ => none

/-- The address of an item; only machine instructions have one. -/
def addr : Item → Except Fault Int
  | insn i => .ok i.addr
  | _ => .error .syntheticItem

end Item

namespace Node

/-- The items of a block. -/
def items? : Node → Option (List Item)
  | block items => some items
  | _ => none

/-- Whether the node is a branch in two. -/
def isIfElse : Node → Bool
  | ifElse .. => true
  | _ => false

end Node

/-- The first item of a block. -/
def firstItem (items : List Item) : Except Fault Item :=
  match items.head? with
  | some i => .ok i
  | none => .error .emptyBlock

/-- The last item of a block. -/
def lastItem (items : List Item) : Except Fault Item :=
  match items.getLast? with
  | some i => .ok i
  | none => .error .emptyBlock

end Decompiler
