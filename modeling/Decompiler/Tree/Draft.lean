import Decompiler.Tree.Node
/-!
# Structured code in the making

While a function is being structured its branches are filled in an order of their own: a node may be
added to a branch long after the construct that holds the branch was placed. A draft is therefore a
table of branches, known by number; constructs refer to their branches by these numbers, and each
branch knows the branch around it, its nesting level and the position of its construct. The tree is
read off from the first branch at the end; a branch that no construct refers to is not part of it.
-/

namespace Decompiler

/-- A node of a draft; branches are given by number. -/
inductive DraftNode where
  | block (insns : List Insn)
  | goto (target : Int)
  | ifGoto (jump : Insn) (cond : Option String) (target : Int) (slot : Option Insn)
  | andIf (jump : Insn) (cond : Option String) (expected : Int) (slot : Option Insn)
  | ifElse (jump : Insn) (expected : Int) (next other : Nat) (slot : Option Insn)
  | loop (endless : Bool) (body : Nat)
  deriving DecidableEq, Repr

/-- A branch of a draft. -/
structure DraftBranch where
  parent : Option Nat
  level : Nat
  place : Int
  nodes : List DraftNode
  deriving DecidableEq, Repr

/-- The branches made so far. -/
structure Draft where
  branches : Array DraftBranch
  deriving DecidableEq, Repr

namespace Draft

/-- The number of the branch from which the tree is read off. -/
def head : Nat := 0

/-- A draft with one empty branch. -/
def start : Draft := ⟨#[⟨none, 0, -1, []⟩]⟩

/-- The level of a branch that stands for code already placed elsewhere: deeper than any other. -/
def shadowLevel : Nat := 9223372036854775807

/-- The nodes of a branch. -/
def nodes (d : Draft) (b : Nat) : List DraftNode := (d.branches[b]?).elim [] (·.nodes)

/-- The nesting level of a branch. -/
def level (d : Draft) (b : Nat) : Nat := (d.branches[b]?).elim 0 (·.level)

/-- The branch around a branch. -/
def parent (d : Draft) (b : Nat) : Option Nat := (d.branches[b]?).bind (·.parent)

/-- Makes an empty branch; gives its number. -/
def newBranch (d : Draft) (parent : Option Nat) (level : Nat) (place : Int) : Nat × Draft :=
  (d.branches.size, ⟨d.branches.push ⟨parent, level, place, []⟩⟩)

/-- Adds a node at the end of a branch. -/
def add (d : Draft) (b : Nat) (n : DraftNode) : Draft :=
  ⟨d.branches.modify b fun br => { br with nodes := br.nodes ++ [n] }⟩

/-- Takes away the last node of a branch. -/
def dropLast (d : Draft) (b : Nat) : Draft :=
  ⟨d.branches.modify b fun br => { br with nodes := br.nodes.dropLast }⟩

/-- The place recorded for a branch. -/
def place (d : Draft) (b : Nat) : Int := (d.branches[b]?).elim (-1) (·.place)

/-- The tree below a branch. Constructs hold branches that were made after them, so the number of
branches bounds the depth. -/
def tree (d : Draft) : (fuel : Nat) → (b : Nat) → List Node
  | 0, _ => []
  | fuel + 1, b => (d.nodes b).map fun n =>
    match n with
    | .block insns => .block (insns.map Item.insn)
    | .goto target => .goto target false
    | .ifGoto jump cond target slot => .ifGoto jump cond target slot none
    | .andIf jump cond expected slot => .andIf jump cond expected slot none
    | .ifElse jump expected next other slot =>
      .ifElse jump expected (d.place next) (tree d fuel next) (tree d fuel other) slot none
    | .loop endless body => .loop endless (d.place body) (tree d fuel body)

/-- The finished tree. -/
def toTree (d : Draft) : List Node := d.tree (d.branches.size + 1) head

end Draft

end Decompiler
