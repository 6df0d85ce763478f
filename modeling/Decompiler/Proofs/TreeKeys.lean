import Decompiler.Proofs.Outcome
import Decompiler.Tree.Gotos
import Mathlib.Data.List.Perm.Basic
/-!
# The code in a tree

`treeKeys` lists the addresses of the blocks and jumps that stand in a tree, each as often as it
stands there. The three passes over gotos keep the list: they take away and put in gotos only, so
the tree without its gotos stays as it is (`bare_bringGotosInLine`), and gotos stand for no code.
The gotos that are taken away stand at the ends of branches (`dropNeedlessGotos_loses`).
-/

namespace Decompiler

open List

variable {tree tree' : List Node} {uncond : List Int}

open Relation (ReflTransGen)

mutual

/-- The addresses of the blocks and jumps in a node. -/
def Node.keys : Node → List Int
  | .block items => (items.head?.bind Item.insn?).toList.map (·.addr)
  | .ifElse jump _ _ next other _ _ => jump.addr :: (treeKeys next ++ treeKeys other)
  | .ifGoto jump _ _ _ _ => [jump.addr]
  | .andIf jump _ _ _ _ => [jump.addr]
  | .loop _ _ body => treeKeys body
  | .ifCond _ body _ => treeKeys body
  | .goto _ _ => []
  | .comment _ => []

/-- The addresses of the blocks and jumps in a branch. -/
def treeKeys : List Node → List Int
  | [] => []
  | n :: rest => n.keys ++ treeKeys rest

end

theorem treeKeys_append (l l' : List Node) : treeKeys (l ++ l') = treeKeys l ++ treeKeys l' := by
  induction l with
  | nil => simp [treeKeys]
  | cons n rest ih => simp [treeKeys, ih]

variable {α β : Type} {e : Edited α}

theorem treeKeys_map (f : α → Node) (l : List α) :
    treeKeys (l.map f) = l.flatMap fun a => (f a).keys := by
  induction l with
  | nil => simp [treeKeys]
  | cons a rest ih => simp [treeKeys, ih]

/-! ## Trees without their gotos -/

mutual

/-- A node without the gotos inside it; nothing, if it is a goto. -/
def Node.bare : Node → List Node
  | .goto _ _ => []
  | .ifElse jump expected place next other slot fused =>
    [.ifElse jump expected place (branchBare next) (branchBare other) slot fused]
  | .loop endless place body => [.loop endless place (branchBare body)]
  | n => [n]

/-- A branch without the gotos in it. -/
def branchBare : List Node → List Node
  | [] => []
  | n :: rest => n.bare ++ branchBare rest

end

theorem branchBare_append (l l' : List Node) :
    branchBare (l ++ l') = branchBare l ++ branchBare l' := by
  induction l with
  | nil => simp [branchBare]
  | cons n rest ih => simp [branchBare, ih]

mutual

theorem Node.keys_bare : ∀ n : Node, treeKeys n.bare = n.keys
  | .ifElse _ _ _ next other _ _ =>
    by simp [Node.bare, Node.keys, treeKeys, treeKeys_bare next, treeKeys_bare other]
  | .loop _ _ body => by simp [Node.bare, Node.keys, treeKeys, treeKeys_bare body]
  | .goto _ _ => rfl
  | .block _ | .comment _ | .ifGoto .. | .andIf .. | .ifCond .. => append_nil _

/-- Gotos stand for no code. -/
theorem treeKeys_bare : ∀ nodes : List Node, treeKeys (branchBare nodes) = treeKeys nodes
  | [] => rfl
  | n :: rest => by rw [branchBare, treeKeys_append, n.keys_bare, treeKeys_bare rest, treeKeys]

end

/-! ## Dropping gotos -/

/-- Only a goto at the end of a branch is found needless. -/
theorem exists_goto_of_needless {around : Surroundings} {nodes : List Node} {needless : Bool}
    (h : endsInNeedlessGoto around nodes = .ok needless) (hneed : needless = true) :
    ∃ target, nodes.getLast? = some (.goto target false) := by
  subst hneed
  unfold endsInNeedlessGoto at h
  split at h
  · exact ⟨_, by assumption⟩
  · cases h

theorem Edited.map_fault (f : α → β) (e : Edited α) : (e.map f).fault = e.fault := rfl

theorem Edited.andThen_done {rest : α → β} {next : α → Edited β}
    (h : (e.andThen rest next).fault = none) :
    e.fault = none ∧ e.andThen rest next = next e.value := by
  unfold Edited.andThen at h ⊢
  cases he : e.fault with
  | some f => simp [he] at h
  | none => exact ⟨rfl, rfl⟩

/-- What holds of both outcomes of a change that goes on holds of its value. -/
theorem Edited.value_andThen {P : β → Prop} {rest : α → β} {next : α → Edited β}
    (hrest : P (rest e.value)) (hnext : P (next e.value).value) :
    P (e.andThen rest next).value := by
  unfold Edited.andThen
  cases e.fault with
  | some f => exact hrest
  | none => exact hnext

/-- A construct as a function of one of its branches. -/
inductive Hole : (List Node → Node) → Prop
  | next {jump expected place other slot fused} : Hole fun l =>
    .ifElse jump expected place l other slot fused
  | other {jump expected place next slot fused} : Hole fun l =>
    .ifElse jump expected place next l slot fused
  | body {endless place} : Hole fun l => .loop endless place l

/-- Some branch of a tree loses the goto at its end. -/
inductive LosesGoto : List Node → List Node → Prop
  | last (front : List Node) (target : Int) : LosesGoto (front ++ [.goto target false]) front
  | inside {hold : List Node → Node} {l l' : List Node} (front rest : List Node) :
    Hole hold → LosesGoto l l' → LosesGoto (front ++ hold l :: rest) (front ++ hold l' :: rest)

variable {l l' : List Node}

theorem LosesGoto.append (h : LosesGoto l l') (front : List Node) :
    LosesGoto (front ++ l) (front ++ l') := by
  cases h with
  | last front' target => exact append_assoc front _ _ ▸ .last (front ++ l') target
  | inside front' rest hole h =>
    rw [← append_assoc, ← append_assoc]
    exact .inside _ rest hole h

theorem LosesGoto.dropLast {target : Int} (h : l.getLast? = some (.goto target false)) :
    LosesGoto l l.dropLast := by
  obtain ⟨front, rfl⟩ := List.getLast?_eq_some_iff.mp h
  rw [dropLast_concat]
  exact .last front target

/-- What is done to a branch is done to the tree that it stands in. -/
theorem Hole.lift {hold : List Node → Node} (hole : Hole hold) (h : ReflTransGen LosesGoto l l')
    (rest : List Node) : ReflTransGen LosesGoto (hold l :: rest) (hold l' :: rest) :=
  h.lift (fun l => hold l :: rest) fun _ _ => .inside [] rest hole

mutual

theorem Node.dropGotos_loses (here : Node → Int → Surroundings) (rest : List Node) :
    ∀ n : Node, ReflTransGen LosesGoto (n :: rest) ((n.dropGotos here).value :: rest)
  | .ifElse jump expected place next other slot fused => by
    unfold Node.dropGotos
    dsimp only
    split
    · exact .refl
    rename_i needless hn
    have hnext := branchDropGotos_loses
      (here (.ifElse jump expected place next other slot fused) place) [] next
      (exists_goto_of_needless hn)
    refine Edited.value_andThen (P := fun m : Node => ReflTransGen LosesGoto _ (m :: rest))
      (Hole.next.lift hnext rest) ((Hole.next.lift hnext rest).trans ?_)
    split
    · exact .refl
    · rename_i needless' ho
      exact Hole.other.lift (branchDropGotos_loses _ [] other (exists_goto_of_needless ho)) rest
  | .loop endless place body => by
    unfold Node.dropGotos
    split
    · exact .refl
    · rename_i needless hn
      exact Hole.body.lift (branchDropGotos_loses _ [] body (exists_goto_of_needless hn)) rest
  | .block _ | .goto _ _ | .comment _ | .ifGoto .. | .andIf .. | .ifCond .. => .refl

/-- Whether it goes through or is stopped, dropping gotos takes away gotos at the ends of branches
only. -/
theorem branchDropGotos_loses (around : Surroundings) {needless : Bool} (before : List Node) :
    ∀ l : List Node, (needless = true → ∃ target, l.getLast? = some (.goto target false)) →
      ReflTransGen LosesGoto l (branchDropGotos around needless before l).value
  | [] => fun _ => .refl
  | n :: rest => by
    intro hlast
    unfold branchDropGotos
    split
    · rename_i hdrop
      obtain ⟨hneed, rfl⟩ : needless = true ∧ rest = [] := by simpa using hdrop
      obtain ⟨target, htarget⟩ := hlast hneed
      exact .single (.dropLast htarget)
    · rename_i hdrop
      -- The goto at the end is still the end of the rest.
      have htail : needless = true → ∃ target, rest.getLast? = some (.goto target false) := by
        intro hneed
        have hne : rest ≠ [] := by
          rintro rfl
          simp [hneed] at hdrop
        rw [← List.getLast?_cons_of_ne_nil hne]
        exact hlast hneed
      dsimp only
      generalize (fun n place => (before ++ n :: (if needless then rest.dropLast else rest),
        place) :: around : Node → Int → Surroundings) = here
      have hnode := n.dropGotos_loses here rest
      refine Edited.value_andThen (P := ReflTransGen LosesGoto _) (hnode.trans ?_) (hnode.trans ?_)
      · split
        · rename_i hneed
          obtain ⟨target, htarget⟩ := htail hneed
          exact .single ((LosesGoto.dropLast htarget).append [_])
        · exact .refl
      · exact (branchDropGotos_loses around _ rest htail).lift ([(n.dropGotos here).value] ++ ·)
          fun _ _ h => h.append _

end

theorem dropNeedlessGotos_loses (tree : List Node) :
    ReflTransGen LosesGoto tree (dropNeedlessGotos tree).value := by
  unfold dropNeedlessGotos
  split
  · exact .refl
  · rename_i needless hn
    exact branchDropGotos_loses [] [] tree (exists_goto_of_needless hn)

/-- What stays when a branch loses a goto stays when needless gotos are dropped. -/
theorem dropNeedlessGotos_keeps {P : List Node → Prop} (h : P tree)
    (hstep : ∀ l l', LosesGoto l l' → P l → P l') : P (dropNeedlessGotos tree).value := by
  have hloses := dropNeedlessGotos_loses tree
  generalize (dropNeedlessGotos tree).value = tree' at hloses
  induction hloses with
  | refl => exact h
  | tail _ hlast ih => exact hstep _ _ hlast ih

theorem LosesGoto.bare (h : LosesGoto l l') : branchBare l' = branchBare l := by
  induction h with
  | last front target => simp [branchBare_append, branchBare, Node.bare]
  | inside front rest hole _ ih =>
    cases hole <;> simp only [branchBare_append, branchBare, Node.bare, ih]

theorem bare_dropNeedlessGotos (tree : List Node) :
    branchBare (dropNeedlessGotos tree).value = branchBare tree := by
  refine dropNeedlessGotos_keeps (P := fun l => branchBare l = _) rfl ?_
  intro l l' hstep hl
  rw [hstep.bare, hl]

/-! ## Gotos after a further condition -/

theorem bare_gotoDue (nodes : List Node) : branchBare (gotoDue nodes) = [] := by
  unfold gotoDue
  split <;> simp [branchBare, Node.bare]

mutual

theorem Node.bare_finishConditions : ∀ n : Node, n.finishConditions.bare = n.bare
  | .ifElse _ _ _ next other _ _ => by
    simp only [Node.finishConditions, Node.bare, branchBare_append, bare_gotoDue, append_nil,
      bare_branchFinishConditions next, bare_branchFinishConditions other]
  | .loop _ _ body => by
    simp only [Node.finishConditions, Node.bare, branchBare_append, bare_gotoDue, append_nil,
      bare_branchFinishConditions body]
  | .block _ | .goto _ _ | .comment _ | .ifGoto .. | .andIf .. | .ifCond .. => rfl

theorem bare_branchFinishConditions :
    ∀ nodes : List Node, branchBare (branchFinishConditions nodes) = branchBare nodes
  | [] => rfl
  | n :: rest => by
    simp only [branchFinishConditions, branchBare, n.bare_finishConditions,
      bare_branchFinishConditions rest]

end

/-! ## Gotos between blocks -/

theorem bare_insertGotos (gotos : List (Nat × Int)) :
    ∀ nodes : List Node, branchBare (insertGotos nodes gotos) = branchBare nodes := by
  have hone : ∀ (k : Nat) (target : Int) (nodes : List Node),
      branchBare (nodes.insertIdx k (.goto target false)) = branchBare nodes := by
    intro k target
    induction k with
    | zero => intro nodes; rfl
    | succ k ih =>
      intro nodes
      cases nodes with
      | nil => simp
      | cons n rest => rw [insertIdx_succ_cons, branchBare, branchBare, ih rest]
  induction gotos with
  | nil => intro nodes; rfl
  | cons goto rest ih =>
    intro nodes
    exact (ih _).trans (hone goto.1 goto.2 nodes)

theorem eq_block_of_items? {n : Node} {items : List Item} (h : n.items? = some items) :
    n = .block items := by
  cases n <;> simp_all [Node.items?]

/-- Where a branch goes on with something other than a block, the pass looks inside of it. -/
theorem branchLinkBlocks_cons (uncond : List Int) (succs : Edges) (k : Nat)
    (previous : Option (List Item)) {n : Node} (h : n.items? = none) (rest : List Node) :
    branchLinkBlocks uncond succs k previous (n :: rest) =
      (n.linkBlocks uncond succs).andThen (fun n => (n :: rest, [])) fun n =>
        (branchLinkBlocks uncond succs (k + 1) none rest).map fun (nodes, gotos) =>
          (n :: nodes, gotos) := by
  cases n with
  | block items => cases h
  | goto | comment | ifGoto | andIf | ifCond | ifElse | loop => rfl

mutual

theorem Node.bare_linkBlocks (uncond : List Int) (succs : Edges) :
    ∀ n : Node, (n.linkBlocks uncond succs).value.bare = n.bare
  | .ifElse jump expected place next other slot fused => by
    have hnext := bare_branchLinkBlocks uncond succs 0 none next
    have hother := bare_branchLinkBlocks uncond succs 0 none other
    unfold Node.linkBlocks
    dsimp only
    split
    · simp only [Edited.stopped, Node.bare, hnext]
    · split <;> simp only [Edited.stopped, Edited.done, Node.bare, bare_insertGotos, hnext, hother]
  | .loop endless place body => by
    have hbody := bare_branchLinkBlocks uncond succs 0 none body
    unfold Node.linkBlocks
    dsimp only
    split <;> simp only [Edited.stopped, Edited.done, Node.bare, bare_insertGotos, hbody]
  | .block _ | .goto _ _ | .comment _ | .ifGoto .. | .andIf .. | .ifCond .. => rfl

theorem bare_branchLinkBlocks (uncond : List Int) (succs : Edges) (k : Nat)
    (previous : Option (List Item)) :
    ∀ nodes : List Node, branchBare (branchLinkBlocks uncond succs k previous nodes).value.1 =
      branchBare nodes
  | [] => rfl
  | n :: rest => by
    cases hi : n.items? with
    | none =>
      rw [branchLinkBlocks_cons _ _ _ _ hi]
      have hn := n.bare_linkBlocks uncond succs
      refine Edited.value_andThen (P := fun r : List Node × List (Nat × Int) =>
        branchBare r.1 = _) ?_ ?_
      · rw [branchBare, branchBare, hn]
      · simp only [Edited.map, branchBare, hn, bare_branchLinkBlocks uncond succs (k + 1) none rest]
    | some items =>
      obtain rfl := eq_block_of_items? hi
      unfold branchLinkBlocks
      split
      · rfl
      · simp only [Edited.map, branchBare,
          bare_branchLinkBlocks uncond succs (k + 1) (some items) rest]

end

theorem bare_linkBlocks (uncond : List Int) (succs : Edges) (tree : List Node) :
    branchBare (linkBlocks uncond succs tree).value = branchBare tree := by
  have htree := bare_branchLinkBlocks uncond succs 0 none tree
  unfold linkBlocks
  dsimp only
  split <;> simp only [Edited.stopped, Edited.done, bare_insertGotos, htree]

theorem Edited.result_eq_ok {a : α} (h : e.result = .ok a) : e.fault = none ∧ e.value = a := by
  unfold Edited.result at h
  cases he : e.fault with
  | some f => simp [he] at h
  | none =>
    rw [he] at h
    exact ⟨rfl, Except.ok.inj h⟩

/-- The passes over gotos change nothing but the gotos of a tree. -/
theorem bare_bringGotosInLine {succs : Edges}
    (h : bringGotosInLine uncond succs tree = .ok tree') : branchBare tree' = branchBare tree := by
  obtain ⟨dropped, hdrop, hlink⟩ := Except.bind_eq_ok.mp h
  obtain ⟨-, rfl⟩ := Edited.result_eq_ok hdrop
  obtain ⟨-, rfl⟩ := Edited.result_eq_ok hlink
  rw [bare_linkBlocks, finishConditions, branchBare_append, bare_gotoDue, append_nil,
    bare_branchFinishConditions, bare_dropNeedlessGotos]

/-- The passes over gotos keep the code of a tree. -/
theorem treeKeys_bringGotosInLine {succs : Edges}
    (h : bringGotosInLine uncond succs tree = .ok tree') : treeKeys tree' = treeKeys tree := by
  rw [← treeKeys_bare, bare_bringGotosInLine h, treeKeys_bare]

end Decompiler
