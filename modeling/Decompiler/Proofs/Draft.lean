import Decompiler.Proofs.TreeKeys
import Decompiler.Tree.Draft
import Mathlib.Data.List.Nodup
import Mathlib.Data.List.Perm.Subperm
/-!
# The code in a draft and in its tree

A draft holds code in numbered branches, and the tree is read off from the first of them.
`Draft.inTree` lists the branches that the tree is made of. In a well-formed draft a construct holds
branches made after its own, and no branch is held twice, so no branch comes twice into the tree
(`nodup_inTree`), and the code of the tree is that of these branches (`treeKeys_toTree`). What the
operations on drafts do to the code they hold stands at the end.
-/

namespace Decompiler

open List

variable {α : Type} {f : List DraftNode → List α}

/-- The address of the block or jump that a node of a draft stands for. -/
def DraftNode.key? : DraftNode → Option Int
  | .block insns => insns.head?.map (·.addr)
  | .ifGoto jump _ _ _ => some jump.addr
  | .andIf jump _ _ _ => some jump.addr
  | .ifElse jump _ _ _ _ => some jump.addr
  | .goto _ => none
  | .loop _ _ => none

/-- The branches that a node of a draft holds. -/
def DraftNode.refs : DraftNode → List Nat
  | .ifElse _ _ next other _ => [next, other]
  | .loop _ body => [body]
  | .block _ => []
  | .goto _ => []
  | .ifGoto _ _ _ _ => []
  | .andIf _ _ _ _ => []

namespace Draft

variable {d : Draft}

/-- The number of branches. -/
def size (d : Draft) : Nat := d.branches.size

/-- The code in a branch itself. -/
def keysOf (d : Draft) (b : Nat) : List Int := (d.nodes b).filterMap DraftNode.key?

/-- The branches held by the constructs of a branch. -/
def refsOf (d : Draft) (b : Nat) : List Nat := (d.nodes b).flatMap DraftNode.refs

/-- The code in all branches. -/
def allKeys (d : Draft) : List Int := (List.range d.size).flatMap d.keysOf

/-- All branches that are held by a construct. -/
def allRefs (d : Draft) : List Nat := (List.range d.size).flatMap d.refsOf

/-- A branch with all branches inside of it, as far down as the tree is read off. -/
def below (d : Draft) : (fuel : Nat) → (b : Nat) → List Nat
  | 0, _ => []
  | fuel + 1, b => b :: (d.refsOf b).flatMap (below d fuel)

/-- The branches that the tree is made of. -/
def inTree (d : Draft) : List Nat := d.below (d.size + 1) head

/-- Constructs hold branches made after their own, no branch is held twice, and the branch recorded
as the one around a branch is there. -/
structure WellFormed (d : Draft) : Prop where
  head_lt : head < d.size
  refs : ∀ b c, c ∈ d.refsOf b → b < c ∧ c < d.size
  once : d.allRefs.Nodup
  parents : ∀ b q, d.parent b = some q → q < d.size

/-! ## Reading off the tree -/

/-- The code of the tree below a branch, node by node. -/
theorem treeKeys_tree (fuel b : Nat) : treeKeys (d.tree (fuel + 1) b) =
    (d.nodes b).flatMap fun n => n.key?.toList ++ n.refs.flatMap fun c =>
      treeKeys (d.tree fuel c) := by
  rw [tree, treeKeys_map]
  refine congrArg (fun f => (d.nodes b).flatMap f) (funext fun n => ?_)
  cases n with
  | block insns =>
    cases insns <;> simp [Node.keys, DraftNode.key?, DraftNode.refs, Item.insn?]
  | goto | ifGoto | andIf | ifElse | loop => simp [Node.keys, DraftNode.key?, DraftNode.refs]

/-- The code of the tree below a branch is that of the branches it is made of. -/
theorem treeKeys_tree_perm :
    ∀ fuel b, (treeKeys (d.tree fuel b)).Perm ((d.below fuel b).flatMap d.keysOf) := by
  intro fuel
  induction fuel with
  | zero => intro b; simp [tree, below, treeKeys]
  | succ fuel ih =>
    intro b
    rw [treeKeys_tree, below, flatMap_cons, flatMap_assoc]
    refine (flatMap_append_perm _ _ _).symm.trans ?_
    rw [← filterMap_eq_flatMap_toList, keysOf, refsOf, flatMap_assoc]
    refine Perm.append_left _ ?_
    refine Perm.flatMap_left _ fun n _ => ?_
    exact Perm.flatMap_left _ fun c _ => ih c

/-! ## Branches of the tree -/

variable {b c : Nat}

theorem nodes_of_size_le (h : d.size ≤ b) : d.nodes b = [] := by
  have hnone : d.branches[b]? = none := Array.getElem?_eq_none h
  rw [nodes, hnone, Option.elim_none]

theorem lt_size_of_mem_refsOf (h : c ∈ d.refsOf b) : b < d.size := by
  by_contra hb
  rw [refsOf, nodes_of_size_le (Nat.le_of_not_lt hb)] at h
  cases h

/-- A branch is held in one branch only. -/
theorem WellFormed.eq_of_mem_refsOf (h : d.WellFormed) {b' : Nat} (hb : c ∈ d.refsOf b)
    (hb' : c ∈ d.refsOf b') : b = b' := by
  by_contra hne
  have hpair := (nodup_flatMap.mp h.once).2
  have hsymm : Std.Symm (Function.onFun List.Disjoint d.refsOf) :=
    ⟨fun x y hxy => List.Disjoint.symm hxy⟩
  have hdisj := hpair.forall (mem_range.mpr (lt_size_of_mem_refsOf hb))
    (mem_range.mpr (lt_size_of_mem_refsOf hb')) hne
  exact hdisj hb hb'

theorem WellFormed.nodup_refsOf (h : d.WellFormed) (b : Nat) : (d.refsOf b).Nodup := by
  by_cases hb : b < d.size
  · exact (nodup_flatMap.mp h.once).1 b (mem_range.mpr hb)
  · rw [refsOf, nodes_of_size_le (Nat.le_of_not_lt hb)]
    exact nodup_nil

/-- What passes from a branch to those it holds passes to everything inside of it. -/
theorem of_mem_below {P : Nat → Prop} (hstep : ∀ b c, c ∈ d.refsOf b → P b → P c) :
    ∀ {fuel b c : Nat}, P b → c ∈ d.below fuel b → P c := by
  intro fuel
  induction fuel with
  | zero => intro b c _ hc; cases hc
  | succ fuel ih =>
    intro b c hb hc
    rcases mem_cons.mp hc with rfl | hc
    · exact hb
    · obtain ⟨e, he, hc⟩ := mem_flatMap.mp hc
      exact ih (hstep b e he hb) hc

theorem le_of_mem_below (h : d.WellFormed) {fuel : Nat} (hc : c ∈ d.below fuel b) : b ≤ c :=
  of_mem_below (fun e e' he hle => hle.trans (h.refs e e' he).1.le) le_rfl hc

/-- What is inside a branch, other than the branch itself, is held by something inside it. -/
theorem exists_holder_of_mem_below :
    ∀ {fuel b c : Nat}, c ∈ d.below fuel b → c = b ∨ ∃ e ∈ d.below fuel b, c ∈ d.refsOf e := by
  intro fuel
  induction fuel with
  | zero => intro b c hc; cases hc
  | succ fuel ih =>
    intro b c hc
    rcases mem_cons.mp hc with rfl | hc
    · exact .inl rfl
    · obtain ⟨e, he, hc⟩ := mem_flatMap.mp hc
      refine .inr ?_
      rcases ih hc with rfl | ⟨e', he', hc'⟩
      · exact ⟨b, .head _, he⟩
      · exact ⟨e', .tail _ (mem_flatMap.mpr ⟨e, he, he'⟩), hc'⟩

/-- Two branches held in the same one have nothing inside of them in common: the holders of a common
branch agree, and going up from holder to holder would lead from one of the two into the other. -/
theorem disjoint_below (h : d.WellFormed) {fuel c₁ c₂ : Nat} (h₁ : c₁ ∈ d.refsOf b)
    (h₂ : c₂ ∈ d.refsOf b) (hne : c₁ ≠ c₂) : ∀ x, x ∈ d.below fuel c₁ → x ∉ d.below fuel c₂ := by
  intro x
  induction x using Nat.strong_induction_on with
  | _ x ih =>
    intro hx₁ hx₂
    have hb₁ := (h.refs b c₁ h₁).1
    have hb₂ := (h.refs b c₂ h₂).1
    rcases exists_holder_of_mem_below hx₁ with rfl | ⟨e₁, he₁, hr₁⟩
    · rcases exists_holder_of_mem_below hx₂ with rfl | ⟨e₂, he₂, hr₂⟩
      · exact hne rfl
      · obtain rfl := h.eq_of_mem_refsOf h₁ hr₂
        have := le_of_mem_below h he₂
        omega
    · rcases exists_holder_of_mem_below hx₂ with rfl | ⟨e₂, he₂, hr₂⟩
      · obtain rfl := h.eq_of_mem_refsOf h₂ hr₁
        have := le_of_mem_below h he₁
        omega
      · obtain rfl := h.eq_of_mem_refsOf hr₁ hr₂
        exact ih e₁ (h.refs e₁ x hr₁).1 he₁ he₂

theorem nodup_below (h : d.WellFormed) : ∀ fuel b, (d.below fuel b).Nodup := by
  intro fuel
  induction fuel with
  | zero => intro b; exact nodup_nil
  | succ fuel ih =>
    intro b
    refine nodup_cons.mpr ⟨fun hb => ?_, nodup_flatMap.mpr ⟨fun c _ => ih c, ?_⟩⟩
    · obtain ⟨c, hc, hb⟩ := mem_flatMap.mp hb
      have hlt := (h.refs b c hc).1
      have hle := le_of_mem_below h hb
      omega
    · exact (h.nodup_refsOf b).imp_of_mem fun hc₁ hc₂ hne => disjoint_below h hc₁ hc₂ hne

theorem nodup_inTree (h : d.WellFormed) : d.inTree.Nodup := nodup_below h _ _

theorem lt_size_of_mem_inTree (h : d.WellFormed) (hb : b ∈ d.inTree) : b < d.size :=
  of_mem_below (fun e e' he _ => (h.refs e e' he).2) h.head_lt hb

/-- The code of the tree is that of the branches it is made of. -/
theorem treeKeys_toTree : (treeKeys d.toTree).Perm (d.inTree.flatMap d.keysOf) :=
  treeKeys_tree_perm _ _

/-- All code of the tree is in the draft, as often as it is in the tree. -/
theorem treeKeys_subperm (h : d.WellFormed) : (treeKeys d.toTree).Subperm d.allKeys := by
  have hsub : d.inTree.Subperm (List.range d.size) :=
    subperm_of_subset (nodup_inTree h) fun b hb => mem_range.mpr (lt_size_of_mem_inTree h hb)
  obtain ⟨l, hl, hsublist⟩ := hsub
  refine treeKeys_toTree.subperm.trans ?_
  exact ⟨l.flatMap d.keysOf, hl.flatMap_right _, hsublist.flatMap _⟩

/-! ## Operations -/

@[simp] theorem size_add (b : Nat) (n : DraftNode) :
    (d.add b n).size = d.size := by simp [size, add]

@[simp] theorem size_dropLast (b : Nat) : (d.dropLast b).size = d.size := by simp [size, dropLast]

@[simp] theorem size_newBranch (parent : Option Nat) (level : Nat) (place : Int) :
    (d.newBranch parent level place).2.size = d.size + 1 := by
  simp [size, newBranch]

theorem nodes_add (hb : b < d.size) (n : DraftNode) (c : Nat) :
    (d.add b n).nodes c = if b = c then d.nodes b ++ [n] else d.nodes c := by
  have hb' : b < d.branches.size := hb
  simp only [nodes, add, Array.getElem?_modify]
  by_cases h : b = c
  · subst h
    simp [hb']
  · simp [h]

/-- What is added to a branch that is not there is lost. -/
theorem add_of_size_le (hb : d.size ≤ b) (n : DraftNode) : d.add b n = d := by
  have hb' : ¬ b < d.branches.size := Nat.not_lt.mpr hb
  simp [add, Array.modify, Array.modifyM, hb']

theorem nodes_dropLast (b c : Nat) :
    (d.dropLast b).nodes c = if b = c then (d.nodes b).dropLast else d.nodes c := by
  simp only [nodes, dropLast, Array.getElem?_modify]
  by_cases h : b = c
  · subst h
    cases d.branches[b]? <;> simp
  · simp [h]

@[simp] theorem nodes_newBranch (parent : Option Nat) (level : Nat) (place : Int) (c : Nat) :
    (d.newBranch parent level place).2.nodes c = d.nodes c := by
  simp only [nodes, newBranch, Array.getElem?_push]
  by_cases h : c = d.branches.size
  · subst h
    simp
  · simp [h]

/-- Changing the value of a function at one place adds to what it gives over a list that has the
place once. -/
theorem flatMap_perm_of_append {f f' : Nat → List α} {l : List Nat} (hl : l.Nodup) (hb : b ∈ l)
    {x : List α} (hne : ∀ c, b ≠ c → f' c = f c) (hat : f' b = f b ++ x) :
    (l.flatMap f').Perm (x ++ l.flatMap f) := by
  induction l with
  | nil => cases hb
  | cons a rest ih =>
    obtain ⟨ha, hrest⟩ := nodup_cons.mp hl
    rw [flatMap_cons, flatMap_cons]
    rcases mem_cons.mp hb with rfl | hmem
    · have hsame : rest.flatMap f' = rest.flatMap f :=
        flatMap_congr fun c hc => hne c fun hbc => ha (hbc ▸ hc)
      rw [hsame, hat, append_assoc]
      exact perm_append_comm_assoc _ _ _
    · have hab : b ≠ a := fun h => ha (h ▸ hmem)
      rw [hne a hab]
      exact (Perm.append_left _ (ih hrest hmem)).trans (perm_append_comm_assoc _ _ _)

/-- What is read off from the nodes of all branches, one branch after another. -/
def allOf {α : Type} (d : Draft) (f : List DraftNode → List α) : List α :=
  (List.range d.size).flatMap fun b => f (d.nodes b)

theorem allOf_add {n : DraftNode} {x : List α} (hf : ∀ l, f (l ++ [n]) = f l ++ x)
    (hb : b < d.size) : ((d.add b n).allOf f).Perm (x ++ d.allOf f) := by
  rw [allOf, size_add]
  refine flatMap_perm_of_append nodup_range (mem_range.mpr hb) (fun c hc => ?_) ?_
  · rw [nodes_add hb, if_neg hc]
  · rw [nodes_add hb, if_pos rfl, hf]

theorem allOf_newBranch (hf : f [] = []) (parent : Option Nat) (level : Nat)
    (place : Int) : (d.newBranch parent level place).2.allOf f = d.allOf f := by
  have hlast : f (d.nodes d.size) = [] := by rw [nodes_of_size_le le_rfl, hf]
  simp only [allOf, size_newBranch, nodes_newBranch, range_succ, flatMap_append]
  simp [hlast]

theorem allKeys_add (hb : b < d.size) (n : DraftNode) :
    (d.add b n).allKeys.Perm (n.key?.toList ++ d.allKeys) := by
  refine allOf_add (fun l => ?_) hb
  cases hk : n.key? <;> simp [hk]

theorem allRefs_add (hb : b < d.size) (n : DraftNode) :
    (d.add b n).allRefs.Perm (n.refs ++ d.allRefs) :=
  allOf_add (fun l => by simp) hb

theorem allKeys_newBranch (parent : Option Nat) (level : Nat) (place : Int) :
    (d.newBranch parent level place).2.allKeys = d.allKeys := allOf_newBranch rfl _ _ _

theorem allRefs_newBranch (parent : Option Nat) (level : Nat) (place : Int) :
    (d.newBranch parent level place).2.allRefs = d.allRefs := allOf_newBranch rfl _ _ _

/-- Dropping a goto leaves the code and the branches held as they are. -/
theorem keysOf_dropLast {target : Int} (h : (d.nodes b).getLast? = some (.goto target)) (c : Nat) :
    (d.dropLast b).keysOf c = d.keysOf c ∧ (d.dropLast b).refsOf c = d.refsOf c := by
  simp only [keysOf, refsOf, nodes_dropLast]
  by_cases hc : b = c
  · subst hc
    obtain ⟨l, hl⟩ := List.getLast?_eq_some_iff.mp h
    simp [hl, DraftNode.key?, DraftNode.refs]
  · simp [hc]

theorem parent_add (b : Nat) (n : DraftNode) (c : Nat) : (d.add b n).parent c = d.parent c := by
  simp only [parent, add, Array.getElem?_modify]
  split
  · cases d.branches[c]? <;> rfl
  · rfl

theorem parent_dropLast (b c : Nat) : (d.dropLast b).parent c = d.parent c := by
  simp only [parent, dropLast, Array.getElem?_modify]
  split
  · cases d.branches[c]? <;> rfl
  · rfl

theorem parent_newBranch (q : Option Nat) (level : Nat) (place : Int) (c : Nat) :
    (d.newBranch q level place).2.parent c = if c = d.size then q else d.parent c := by
  simp only [parent, newBranch, Array.getElem?_push]
  by_cases hc : c = d.size
  · have hc' : c = d.branches.size := hc
    rw [if_pos hc, if_pos hc']
    rfl
  · have hc' : ¬ c = d.branches.size := hc
    rw [if_neg hc, if_neg hc']

/-! ## Well-formedness after each operation -/

/-- A branch that is not yet held by a construct. -/
def Fresh (d : Draft) (c : Nat) : Prop := c < d.size ∧ c ∉ d.allRefs

theorem mem_allRefs : c ∈ d.allRefs ↔ ∃ b, c ∈ d.refsOf b := by
  simp only [allRefs, mem_flatMap, mem_range]
  exact exists_congr fun b => and_iff_right_of_imp lt_size_of_mem_refsOf

theorem WellFormed.start : Draft.start.WellFormed where
  head_lt := by decide
  refs b c h := by
    have hnil : Draft.start.nodes b = [] := by
      cases b <;> rfl
    rw [refsOf, hnil] at h
    cases h
  once := by decide
  parents b q h := by
    cases b <;> cases h

theorem WellFormed.newBranch (h : d.WellFormed) {q : Option Nat} (hq : ∀ b, q = some b → b < d.size)
    (level : Nat) (place : Int) : (d.newBranch q level place).2.WellFormed where
  head_lt := by
    have := h.head_lt
    rw [size_newBranch]
    omega
  refs b c hc := by
    rw [refsOf, nodes_newBranch] at hc
    have := h.refs b c hc
    rw [size_newBranch]
    omega
  once := by
    rw [allRefs_newBranch]
    exact h.once
  parents b p hp := by
    rw [size_newBranch]
    rw [parent_newBranch] at hp
    split at hp
    · have := hq p hp
      omega
    · have := h.parents b p hp
      omega

theorem fresh_newBranch (h : d.WellFormed) (q : Option Nat) (level : Nat) (place : Int) :
    (d.newBranch q level place).2.Fresh d.size := by
  refine ⟨by rw [size_newBranch]; omega, ?_⟩
  rw [allRefs_newBranch, mem_allRefs]
  rintro ⟨b, hb⟩
  have := (h.refs b _ hb).2
  omega

theorem Fresh.newBranch (hc : d.Fresh c) (q : Option Nat) (level : Nat) (place : Int) :
    (d.newBranch q level place).2.Fresh c := by
  refine ⟨?_, by rw [allRefs_newBranch]; exact hc.2⟩
  have := hc.1
  rw [size_newBranch]
  omega

/-- Adding a construct that holds fresh branches keeps a draft well formed. -/
theorem WellFormed.add (h : d.WellFormed) (hb : b < d.size) {n : DraftNode} (hn : n.refs.Nodup)
    (hrefs : ∀ c ∈ n.refs, b < c ∧ d.Fresh c) : (d.add b n).WellFormed where
  head_lt := by rw [size_add]; exact h.head_lt
  refs e c hc := by
    rw [size_add]
    rw [refsOf, nodes_add hb] at hc
    split at hc
    · rename_i he
      subst he
      rw [flatMap_append, mem_append] at hc
      rcases hc with hc | hc
      · exact h.refs b c hc
      · have hc' : c ∈ n.refs := by simpa using hc
        exact ⟨(hrefs c hc').1, (hrefs c hc').2.1⟩
    · exact h.refs e c hc
  once := by
    rw [(allRefs_add hb n).nodup_iff]
    exact List.Nodup.append hn h.once fun c hc hc' => (hrefs c hc).2.2 hc'
  parents e q hq := by
    rw [size_add]
    rw [parent_add] at hq
    exact h.parents e q hq

theorem WellFormed.dropLast (h : d.WellFormed) {target : Int}
    (hlast : (d.nodes b).getLast? = some (.goto target)) : (d.dropLast b).WellFormed where
  head_lt := by rw [size_dropLast]; exact h.head_lt
  refs e c hc := by
    rw [size_dropLast]
    rw [(keysOf_dropLast hlast e).2] at hc
    exact h.refs e c hc
  once := by
    have hsame : (d.dropLast b).refsOf = d.refsOf := funext fun c => (keysOf_dropLast hlast c).2
    rw [allRefs, hsame, size_dropLast]
    exact h.once
  parents e q hq := by
    rw [size_dropLast]
    rw [parent_dropLast] at hq
    exact h.parents e q hq

end Draft

end Decompiler
