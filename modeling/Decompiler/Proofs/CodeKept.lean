import Decompiler.Proofs.OneByteCode
import Decompiler.Proofs.Placement
/-!
# Which code a structuring keeps

No block and no jump comes twice into the tree. One is missing exactly if a step lost it, and there
are three ways to lose it: a node is put off and its waiting never ends, a task is turned away and
its node is not placed by another, or code goes into a branch that no construct of the tree holds.
`structure_keeps_code_iff` says that the tree has every node of the graph if and only if none of
these happened.
-/

namespace Decompiler

open List

namespace Structuring

variable {subj : Subject} {s s' s₀ : Build}

/-! ## Runs -/

/-- One step: the next task is taken and its node placed. -/
def Step (subj : Subject) (s s' : Build) : Prop :=
  ∃ t rest, s.tasks = t :: rest ∧ place subj t { s with tasks := rest } = .ok () s'

/-- Any number of steps. -/
def Run (subj : Subject) : Build → Build → Prop := Relation.ReflTransGen (Step subj)

/-- How placing all nodes ends. -/
inductive Finishes (subj : Subject) (fuel : Nat) (s : Build) :
    EStateM.Result Fault Build Unit → Prop where
  | done {s' : Build} (run : Run subj s s') (tasks : s'.tasks = []) :
    Finishes subj fuel s (.ok () s')
  | failed {s₁ s' : Build} {t : Task} {rest : List Task} {e : Fault} (run : Run subj s s₁)
    (tasks : s₁.tasks = t :: rest)
    (place : place subj t { s₁ with tasks := rest } = .error e s') :
    Finishes subj fuel s (.error e s')
  /-- There are steps left to make, so that nothing that every step lowers begins below the number
  of steps allowed. -/
  | bound {s' : Build} (long : ∀ m : Build → Nat,
      (∀ s₁ s₂, Run subj s s₁ → Step subj s₁ s₂ → m s₂ < m s₁) → fuel ≤ m s) :
      Finishes subj fuel s (.error .stepBound s')

theorem placeAll_finishes (subj : Subject) :
    ∀ (fuel : Nat) (s : Build), Finishes subj fuel s (placeAll subj fuel s) := by
  intro fuel
  induction fuel with
  | zero => exact fun s => .bound fun m _ => Nat.zero_le _
  | succ fuel ih =>
    intro s
    rw [placeAll, get_bind_apply]
    cases htasks : s.tasks with
    | nil => exact .done .refl htasks
    | cons t rest =>
      show Finishes subj (fuel + 1) s ((place subj t >>= fun _ => placeAll subj fuel)
        { s with tasks := rest })
      cases hplace : place subj t { s with tasks := rest } with
      | error e s' =>
        rw [bind_of_error hplace]
        exact .failed .refl htasks hplace
      | ok r s' =>
        have hstep : Step subj s s' := ⟨t, rest, htasks, hplace⟩
        rw [bind_of_ok hplace]
        have hrest := ih s'
        generalize placeAll subj fuel s' = result at hrest ⊢
        cases hrest with
        | done hrun hdone => exact .done (.head hstep hrun) hdone
        | failed hrun htasks' hplace' => exact .failed (.head hstep hrun) htasks' hplace'
        | bound hlong =>
          refine .bound fun m hm => ?_
          have hle := hlong m fun s₁ s₂ hrun => hm s₁ s₂ (.head hstep hrun)
          have hlt := hm s s' .refl hstep
          omega

/-- What returns is a run to a state without tasks. -/
theorem run_of_placeAll {fuel : Nat} {s s' : Build} (h : placeAll subj fuel s = .ok () s') :
    Run subj s s' ∧ s'.tasks = [] := by
  have hends := placeAll_finishes subj fuel s
  rw [h] at hends
  cases hends with
  | done hrun hdone => exact ⟨hrun, hdone⟩

/-- On the way from `s₀` a task for an address is not followed. -/
def TurnedAway (subj : Subject) (s₀ : Build) (addr : Int) : Prop :=
  ∃ s t rest, Run subj s₀ s ∧ s.tasks = t :: rest ∧ t.addr = addr ∧
    turnsAway subj s.pending t = true

/-! ## What is accounted for -/

/-- An address that has come up is placed, still to be placed, put off, or was turned away. -/
def Known (subj : Subject) (s₀ s : Build) (addr : Int) : Prop :=
  addr ∈ s.visited ∨ (∃ t ∈ s.tasks, t.addr = addr) ∨ addr ∈ s.pending.keys ∨
    TurnedAway subj s₀ addr

/-- The invariant of a run: the code in the draft is that of the nodes placed, each once, and all
successors of these have come up. -/
structure Accounts (subj : Subject) (s₀ s : Build) : Prop where
  bounded : s.Bounded
  keys : s.draft.allKeys.Perm s.visited
  nodup : s.visited.Nodup
  nodes : ∀ a ∈ s.visited, a ∈ subj.graph.nodes.keys
  tasks : ∀ t ∈ s.tasks, t.addr ∈ subj.graph.nodes.keys
  entry : Known subj s₀ s subj.graph.entry
  succs : ∀ a b, a ∈ s.visited → subj.graph.Edge a b → Known subj s₀ s b

theorem Accounts.start (subj : Subject) (hg : subj.graph.WellFormed) (labels : OrdMap Int String)
    (memo : PathMemo) :
    Accounts subj (Build.start subj.graph.entry labels memo)
      (Build.start subj.graph.entry labels memo) where
  bounded :=
    { draft := Draft.WellFormed.start
      tasks := fun t ht => by
        rw [mem_singleton.mp ht]
        exact ⟨fun b hb => Option.some.inj hb ▸ Draft.WellFormed.start.head_lt, by simp⟩
      pending := fun a p hp => by cases hp }
  keys := by
    have hkeys : Draft.start.allKeys = [] := by decide
    rw [Build.start, hkeys]
  nodup := nodup_nil
  nodes a ha := by cases ha
  tasks t ht := by
    rw [mem_singleton.mp ht]
    exact hg.entry_mem
  entry := .inr (.inl ⟨_, mem_singleton.mpr rfl, rfl⟩)
  succs a b ha := by cases ha

theorem Accounts.step (hg : subj.graph.WellFormed) (hrun : Run subj s₀ s) (h : Accounts subj s₀ s)
    (hstep : Step subj s s') : Accounts subj s₀ s' := by
  obtain ⟨t, rest, htasks, hplace⟩ := hstep
  obtain ⟨seen, more, ha⟩ := place_deals hg h.bounded htasks hplace
  -- Whatever has come up before is still known, the task's own node included.
  have hmono : ∀ a, Known subj s₀ s a → Known subj s₀ s' a := by
    rintro a (ha' | ⟨t', ht', rfl⟩ | ha' | ha')
    · exact .inl (ha.visited ▸ mem_append_right _ ha')
    · rw [htasks] at ht'
      rcases mem_cons.mp ht' with rfl | ht'
      · rcases ha.dealt with hseen | hvisited | hwaits | haway
        · exact .inl (ha.visited ▸ mem_append_left _ hseen)
        · exact .inl (ha.visited ▸ mem_append_right _ hvisited)
        · exact .inr (.inr (.inl hwaits))
        · exact .inr (.inr (.inr ⟨s, t', rest, hrun, htasks, rfl, haway⟩))
      · exact .inr (.inl ⟨t', ha.tasks ▸ mem_append_right _ ht', rfl⟩)
    · rcases ha.pending a ha' with hseen | hwaits
      · exact .inl (ha.visited ▸ mem_append_left _ hseen)
      · exact .inr (.inr (.inl hwaits))
    · exact .inr (.inr (.inr ha'))
  refine ⟨ha.bounded, ?_, ?_, ?_, ?_, hmono _ h.entry, ?_⟩
  · rw [ha.visited]
    exact ha.keys.trans (h.keys.append_left seen)
  · rw [ha.visited]
    exact nodup_append.mpr ⟨ha.nodup, h.nodup, fun a hseen b hb hab =>
      (ha.fresh a hseen).2 (hab ▸ hb)⟩
  · rw [ha.visited]
    refine forall_mem_append.mpr ⟨fun a hseen => ?_, h.nodes⟩
    rw [(ha.fresh a hseen).1]
    exact h.tasks t (htasks ▸ .head _)
  · rw [ha.tasks]
    refine forall_mem_append.mpr ⟨fun t' ht' => ?_, fun t' ht' =>
      h.tasks t' (htasks ▸ mem_cons_of_mem t ht')⟩
    obtain ⟨a, -, hedge⟩ := mem_flatMap.mp (ha.follow.mem_iff.mp (mem_map_of_mem ht'))
    exact hg.closed a t'.addr hedge
  · intro a b hav hab
    rw [ha.visited] at hav
    rcases mem_append.mp hav with hseen | hav
    · obtain ⟨t', ht', rfl⟩ := mem_map.mp (ha.follow.mem_iff.mpr (mem_flatMap.mpr ⟨a, hseen, hab⟩))
      exact .inr (.inl ⟨t', ha.tasks ▸ mem_append_left _ ht', rfl⟩)
    · exact hmono b (h.succs a b hav hab)

theorem Accounts.run (hg : subj.graph.WellFormed) (h₀ : Accounts subj s₀ s₀)
    (hrun : Run subj s₀ s) : Accounts subj s₀ s := by
  induction hrun with
  | refl => exact h₀
  | tail hrun hstep ih => exact ih.step hg hrun hstep

/-! ## What is lost -/

/-- Nothing was lost on the way from `s₀` to the end `s`: every node that was put off or turned away
is placed, and there is no code in branches outside of the tree. -/
structure LosesNothing (subj : Subject) (s₀ s : Build) : Prop where
  waits : ∀ a ∈ s.pending.keys, a ∈ subj.graph.nodes.keys → a ∈ s.visited
  turned : ∀ a, TurnedAway subj s₀ a → a ∈ s.visited
  tree : ∀ b, b ∉ s.draft.inTree → s.draft.keysOf b = []

theorem mem_visited_of_losesNothing (hg : subj.graph.WellFormed) (h : Accounts subj s₀ s)
    (hdone : s.tasks = []) (hkeep : LosesNothing subj s₀ s) :
    ∀ a ∈ subj.graph.nodes.keys, a ∈ s.visited := by
  have hknown : ∀ a ∈ subj.graph.nodes.keys, Known subj s₀ s a → a ∈ s.visited := by
    rintro a ha (hv | ⟨t, ht, -⟩ | hw | ht)
    · exact hv
    · rw [hdone] at ht
      cases ht
    · exact hkeep.waits a hw ha
    · exact hkeep.turned a ht
  intro a ha
  have hreach := hg.reachable a ha
  clear ha
  induction hreach with
  | refl => exact hknown _ hg.entry_mem h.entry
  | tail _ hbc ih => exact hknown _ (hg.closed _ _ hbc) (h.succs _ _ ih hbc)

section Keys

variable {d : Draft} {k : Int}

theorem lt_size_of_mem_keysOf {b : Nat} (h : k ∈ d.keysOf b) : b < d.size := by
  by_contra hb
  rw [Draft.keysOf, Draft.nodes_of_size_le (Nat.le_of_not_lt hb)] at h
  cases h

theorem mem_allKeys : k ∈ d.allKeys ↔ ∃ b, k ∈ d.keysOf b := by
  simp only [Draft.allKeys, mem_flatMap, mem_range]
  exact exists_congr fun b => and_iff_right_of_imp lt_size_of_mem_keysOf

theorem mem_treeKeys_toTree : k ∈ treeKeys d.toTree ↔ ∃ b ∈ d.inTree, k ∈ d.keysOf b := by
  rw [Draft.treeKeys_toTree.mem_iff, mem_flatMap]

end Keys

/-- Code stands in one branch only. -/
theorem Accounts.eq_of_mem_keysOf (h : Accounts subj s₀ s) {k : Int} {b c : Nat}
    (hb : k ∈ s.draft.keysOf b) (hc : k ∈ s.draft.keysOf c) : b = c := by
  by_contra hne
  have hnodup : s.draft.allKeys.Nodup := h.keys.nodup_iff.mpr h.nodup
  have hsymm : Std.Symm (Function.onFun List.Disjoint s.draft.keysOf) :=
    ⟨fun x y hxy => List.Disjoint.symm hxy⟩
  have hdisj := (nodup_flatMap.mp hnodup).2.forall (mem_range.mpr (lt_size_of_mem_keysOf hb))
    (mem_range.mpr (lt_size_of_mem_keysOf hc)) hne
  exact hdisj hb hc

/-- The tree of a finished run has every node exactly if the run lost nothing. -/
theorem forall_mem_treeKeys_iff (hg : subj.graph.WellFormed) (h₀ : Accounts subj s₀ s₀)
    (hrun : Run subj s₀ s) (hdone : s.tasks = []) :
    (∀ k ∈ subj.graph.nodes.keys, k ∈ treeKeys s.draft.toTree) ↔ LosesNothing subj s₀ s := by
  have h := h₀.run hg hrun
  have hsub : ∀ k ∈ treeKeys s.draft.toTree, k ∈ s.visited := fun k hk =>
    h.keys.mem_iff.mp ((Draft.treeKeys_subperm h.bounded.draft).subset hk)
  constructor
  · intro hall
    have hvisited : ∀ k ∈ subj.graph.nodes.keys, k ∈ s.visited := fun k hk => hsub k (hall k hk)
    refine ⟨fun a _ ha => hvisited a ha, fun a hturned => ?_, fun b hb => ?_⟩
    · obtain ⟨s₁, t, rest, hrun₁, htasks, rfl, -⟩ := hturned
      exact hvisited _ ((h₀.run hg hrun₁).tasks t (htasks ▸ .head _))
    · refine eq_nil_iff_forall_not_mem.mpr fun k hk => hb ?_
      have hmem : k ∈ s.visited := h.keys.mem_iff.mp (mem_allKeys.mpr ⟨b, hk⟩)
      obtain ⟨c, hc, hkc⟩ := mem_treeKeys_toTree.mp (hall k (h.nodes k hmem))
      rwa [h.eq_of_mem_keysOf hk hkc]
  · intro hkeep k hk
    have hmem := h.keys.mem_iff.mpr (mem_visited_of_losesNothing hg h hdone hkeep k hk)
    obtain ⟨b, hb⟩ := mem_allKeys.mp hmem
    refine mem_treeKeys_toTree.mpr ⟨b, ?_, hb⟩
    by_contra hnot
    rw [hkeep.tree b hnot] at hb
    cases hb

end Structuring

open Structuring

/-- No code comes twice into the tree of a function, and none is missing exactly if the structuring
lost nothing: if every node that was put off or turned away was placed after all, and no code was
put outside of the tree. -/
theorem structure_keeps_code_iff {p p' : Program} (hp : p.Keyed) {entry : Int} {g₀ g : Graph}
    (hfound : Graph.discover entry p = .ok (some g₀) p') (hblocks : g₀.blocks p.arch = .ok g)
    (nest : LoopNest) (further : Bool) (labels : OrdMap Int String) {s : Build} {tree : List Node}
    (hbuild : build ⟨p.arch, g, nest, further⟩ (Build.start entry labels ∅) = .ok () s)
    (htree : bringGotosInLine g.uncondJumps g.succs s.draft.toTree = .ok tree) :
    (∀ k, (treeKeys tree).count k ≤ 1) ∧ (∀ k ∈ treeKeys tree, k ∈ g.nodes.keys) ∧
      ((∀ k ∈ g.nodes.keys, (treeKeys tree).count k = 1) ↔
        LosesNothing ⟨p.arch, g, nest, further⟩ (Build.start entry labels ∅) s) := by
  obtain ⟨hwf, -, rfl⟩ := Graph.wellFormed_of_blocks hp hfound hblocks
  obtain ⟨hrun, hdone⟩ := run_of_placeAll hbuild
  have h₀ := Accounts.start ⟨p.arch, g, nest, further⟩ hwf labels ∅
  have h := h₀.run hwf hrun
  rw [treeKeys_bringGotosInLine htree]
  have hsub := Draft.treeKeys_subperm h.bounded.draft
  have hnodup : (treeKeys s.draft.toTree).Nodup := by
    obtain ⟨l, hl, hsublist⟩ := hsub
    exact hl.nodup_iff.mp ((h.keys.nodup_iff.mpr h.nodup).sublist hsublist)
  refine ⟨fun k => nodup_iff_count_le_one.mp hnodup k,
    fun k hk => h.nodes k (h.keys.mem_iff.mp (hsub.subset hk)), ?_⟩
  rw [← forall_mem_treeKeys_iff hwf h₀ hrun hdone]
  refine forall₂_congr fun k _ => ⟨fun hk => ?_, fun hk => count_eq_one_of_mem hnodup hk⟩
  exact count_pos_iff.mp (by omega)

/-- A loop with two ways out inside it is kept whole. -/
theorem structure_keeps_code_loop :
    ∃ (p' : Program) (g₀ g : Graph) (nest : LoopNest) (s : Build) (tree : List Node),
      Graph.discover 0 (OneByte.program [.run, .fork 5, .fork 4, .jump 1, .run, .ret]) =
      .ok (some g₀) p' ∧ g₀.blocks .x86 = .ok g ∧ g.loopNest = .ok nest ∧
      build ⟨.x86, g, nest, true⟩ (Build.start 0 ∅ ∅) = .ok () s ∧
      bringGotosInLine g.uncondJumps g.succs s.draft.toTree = .ok tree ∧
      (∀ k ∈ g.nodes.keys, (treeKeys tree).count k = 1) ∧
      LosesNothing ⟨.x86, g, nest, true⟩ (Build.start 0 ∅ ∅) s := by
  have hval : (OneByte.structured? [.run, .fork 5, .fork 4, .jump 1, .run, .ret] true).map
      (fun r => (r.graph.nodes.keys, treeKeys r.tree)) =
      some ([0, 1, 2, 3, 4, 5], [0, 1, 2, 3, 4, 5]) := by
    decide +kernel
  obtain ⟨r, hr, hkeys⟩ := Option.map_eq_some_iff.mp hval
  obtain ⟨p', g₀, hfound, hblocks, hnest, hbuild, htree⟩ := OneByte.exists_of_structured? hr
  obtain ⟨hgraph, htreeKeys⟩ := Prod.mk.inj hkeys
  have hall : ∀ k ∈ r.graph.nodes.keys, (treeKeys r.tree).count k = 1 := by
    rw [hgraph, htreeKeys]
    decide
  have hiff := structure_keeps_code_iff (OneByte.program_keyed _) hfound hblocks r.nest true ∅
    hbuild htree
  exact ⟨p', g₀, r.graph, r.nest, r.build, r.tree, hfound, hblocks, hnest, hbuild, htree, hall,
    hiff.2.2.mp hall⟩

/-- Three loops that share nodes: two of the five nodes are missing from the tree, with further
conditions or without. The innermost loop starts at a node that is put off, and its waiting never
ends. -/
theorem structure_loses_inner_loop :
    ∃ (p' : Program) (g₀ g : Graph) (nest : LoopNest),
      Graph.discover 0 (OneByte.program [.run, .fork 3, .fork 1, .fork 2, .jump 3]) =
        .ok (some g₀) p' ∧
      g₀.blocks .x86 = .ok g ∧ g.loopNest = .ok nest ∧ 3 ∈ g.nodes.keys ∧ 4 ∈ g.nodes.keys ∧
      ∀ further, ∃ (s : Build) (tree : List Node),
        build ⟨.x86, g, nest, further⟩ (Build.start 0 ∅ ∅) = .ok () s ∧
        bringGotosInLine g.uncondJumps g.succs s.draft.toTree = .ok tree ∧ 3 ∉ treeKeys tree ∧
          4 ∉ treeKeys tree := by
  have hval : ∀ further, (OneByte.structured? [.run, .fork 3, .fork 1, .fork 2, .jump 3]
      further).map
      (fun r => (r.graph.nodes.keys, treeKeys r.tree)) = some ([0, 1, 2, 3, 4], [0, 1, 2]) := by
    decide +kernel
  obtain ⟨r, hr, hkeys⟩ := Option.map_eq_some_iff.mp (hval false)
  obtain ⟨p', g₀, hfound, hblocks, hnest, -, -⟩ := OneByte.exists_of_structured? hr
  obtain ⟨hgraph, -⟩ := Prod.mk.inj hkeys
  refine ⟨p', g₀, r.graph, r.nest, hfound, hblocks,
    hnest, by rw [hgraph]; decide, by rw [hgraph]; decide, ?_⟩
  intro further
  obtain ⟨r', hr', hkeys'⟩ := Option.map_eq_some_iff.mp (hval further)
  obtain ⟨p'', g₀', hfound', hblocks', hnest', hbuild', htree'⟩ := OneByte.exists_of_structured? hr'
  obtain ⟨-, htreeKeys⟩ := Prod.mk.inj hkeys'
  -- The graph and its loops do not depend on how conditions are written.
  rw [hfound] at hfound'
  cases hfound'
  obtain hgraph' : r.graph = r'.graph := Except.ok.inj (hblocks.symm.trans hblocks')
  rw [hgraph'] at hnest ⊢
  rw [Except.ok.inj (hnest.symm.trans hnest')]
  refine ⟨r'.build, r'.tree, hbuild', htree', ?_⟩
  rw [htreeKeys]
  decide

end Decompiler
