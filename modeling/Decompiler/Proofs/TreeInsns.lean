import Decompiler.Idiom.Pass
import Decompiler.Proofs.TreeKeys
import Decompiler.Tree.Draft
/-!
# The instructions in a tree

`branchHeld` lists the machine instructions that a tree holds, wherever they stand: in blocks, under
a pseudo instruction, or in a condition as its jump, its comparison or the instruction in the delay
slot. Each comes with how it is written: on a line of its own, which is left out if a condition
shows it, or as a remark, which is always there.

A tree is a nested type, so statements about all its nodes are proved by `Node.induction`, which
gives the hypothesis for every node of the branches inside.
-/

namespace Decompiler

/-- Induction on nodes: a property holds of a node if it does of all nodes in its branches. -/
theorem Node.induction {P : Node → Prop} (block : ∀ items, P (.block items))
    (goto : ∀ target keep, P (.goto target keep)) (comment : ∀ text, P (.comment text))
    (ifGoto : ∀ jump cond target slot fused, P (.ifGoto jump cond target slot fused))
    (andIf : ∀ jump cond expected slot fused, P (.andIf jump cond expected slot fused))
    (ifCond : ∀ cond body fused, (∀ n ∈ body, P n) → P (.ifCond cond body fused))
    (ifElse : ∀ jump expected place next other slot fused, (∀ n ∈ next, P n) → (∀ n ∈ other, P n) →
      P (.ifElse jump expected place next other slot fused))
    (loop : ∀ endless place body, (∀ n ∈ body, P n) → P (.loop endless place body)) (n : Node) :
    P n := by
  refine @Node.rec P (fun l => ∀ n ∈ l, P n) block goto comment ifGoto andIf ifCond ifElse
    loop ?_ ?_ n
  · intro n hn
    cases hn
  · intro head tail hhead htail
    exact List.forall_mem_cons.mpr ⟨hhead, htail⟩

/-! ## Instructions -/

/-- An instruction in a tree, and whether it is written as a remark. -/
structure HeldInsn where
  insn : Insn
  asRemark : Bool

/-- The instructions of an item: one that a pseudo instruction stands for is a remark. -/
def Item.held : Item → List HeldInsn
  | .insn i => [⟨i, false⟩]
  | .gap => []
  | .pseudo _ parts => parts.map fun i => ⟨i, true⟩

/-- The instructions of a condition: the comparison and the jump are remarks. -/
def heldInCondition (jump slot fused : Option Insn) : List HeldInsn :=
  (fused.toList ++ jump.toList).map (fun i => ⟨i, true⟩) ++ slot.toList.map fun i => ⟨i, false⟩

mutual

/-- The instructions in a node. -/
def Node.held : Node → List HeldInsn
  | .block items => items.flatMap Item.held
  | .goto _ _ => []
  | .comment _ => []
  | .ifGoto jump _ _ slot fused => heldInCondition (some jump) slot fused
  | .andIf jump _ _ slot fused => heldInCondition (some jump) slot fused
  | .ifCond _ body fused => heldInCondition none none fused ++ branchHeld body
  | .ifElse jump _ _ next other slot fused =>
    heldInCondition (some jump) slot fused ++ (branchHeld next ++ branchHeld other)
  | .loop _ _ body => branchHeld body

/-- The instructions in a branch. -/
def branchHeld : List Node → List HeldInsn
  | [] => []
  | n :: rest => n.held ++ branchHeld rest

end

/-- The comparison that a construct shows in its condition. -/
def Node.fused? : Node → Option Insn
  | .ifGoto _ _ _ _ fused => fused
  | .andIf _ _ _ _ fused => fused
  | .ifCond _ _ fused => fused
  | .ifElse _ _ _ _ _ _ fused => fused
  | .block _ => none
  | .goto _ _ => none
  | .comment _ => none
  | .loop _ _ _ => none

/-- The comparison in a condition is a remark. -/
theorem Node.mem_held_of_fused? {n : Node} {i : Insn} (h : n.fused? = some i) :
    ⟨i, true⟩ ∈ n.held := by
  cases n with
  | block | goto | comment | loop => cases h
  | ifGoto | andIf | ifCond | ifElse =>
    simp only [Node.fused?] at h
    simp [Node.held, heldInCondition, h]

/-! ## Conditional groups -/

/-- The instructions that take effect under a condition are in blocks: there is nothing but blocks
in a conditional group. -/
def OnlyBlocks (nodes : List Node) : Prop := ∀ n ∈ nodes, ∃ items, n = .block items

mutual

/-- The conditional groups in a node hold nothing but blocks. -/
def Node.Flat : Node → Prop
  | .ifCond _ body _ => OnlyBlocks body
  | .ifElse _ _ _ next other _ _ => branchFlat next ∧ branchFlat other
  | .loop _ _ body => branchFlat body
  | .block _ | .goto _ _ | .comment _ | .ifGoto .. | .andIf .. => True

/-- The conditional groups in a branch hold nothing but blocks. -/
def branchFlat : List Node → Prop
  | [] => True
  | n :: rest => n.Flat ∧ branchFlat rest

end

theorem branchFlat_iff {nodes : List Node} : branchFlat nodes ↔ ∀ n ∈ nodes, n.Flat := by
  induction nodes with
  | nil => simp [branchFlat]
  | cons n rest ih => simp [branchFlat, ih]

theorem branchFlat_append {l l' : List Node} :
    branchFlat (l ++ l') ↔ branchFlat l ∧ branchFlat l' := by
  simp only [branchFlat_iff, List.forall_mem_append]

/-- The tree of a draft has no conditional groups. -/
theorem Draft.flat_tree (d : Draft) : ∀ fuel b, branchFlat (d.tree fuel b) := by
  intro fuel
  induction fuel with
  | zero => intro b; trivial
  | succ fuel ih =>
    intro b
    rw [branchFlat_iff]
    intro n hn
    obtain ⟨m, -, rfl⟩ := List.mem_map.mp hn
    cases m with
    | block | goto | ifGoto | andIf => trivial
    | ifElse jump expected next other slot => exact ⟨ih next, ih other⟩
    | loop endless body => exact ih body

/-! ## Passes over gotos -/

mutual

theorem Node.flat_bare : ∀ n : Node, branchFlat n.bare ↔ n.Flat
  | .ifElse _ _ _ next other _ _ => by
    simp only [Node.bare, branchFlat, Node.Flat, flat_bare next, flat_bare other, and_true]
  | .loop _ _ body => by simp only [Node.bare, branchFlat, Node.Flat, flat_bare body, and_true]
  | .goto _ _ => Iff.rfl
  | .block _ | .comment _ | .ifGoto .. | .andIf .. | .ifCond .. => and_iff_left trivial

/-- Gotos are no conditional groups. -/
theorem flat_bare : ∀ nodes : List Node, branchFlat (branchBare nodes) ↔ branchFlat nodes
  | [] => Iff.rfl
  | n :: rest => by rw [branchBare, branchFlat_append, n.flat_bare, flat_bare rest, branchFlat]

end

/-- A tree whose gotos are in line is flat if the tree before was. -/
theorem flat_bringGotosInLine {uncond : List Int} {succs : Edges} {tree tree' : List Node}
    (hflat : branchFlat tree) (h : bringGotosInLine uncond succs tree = .ok tree') :
    branchFlat tree' := by
  rwa [← flat_bare, bare_bringGotosInLine h, flat_bare]

end Decompiler
