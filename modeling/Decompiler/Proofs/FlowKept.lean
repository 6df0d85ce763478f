import Decompiler.Proofs.PromisesKept
/-!
# Control flow is kept where there are no cycles

The tree of a graph without cycles goes exactly the ways of the graph: the nodes that control can
get to next from a node are its successors, however these are written (`structure_keeps_flow`). All
code is in the tree, since every branch is held by a construct.

With a cycle this may fail. An edge back to the entry is not written as a goto, since going there is
taken for going round a loop, and where no loop is recorded the edge is lost
(`structure_loses_edge_to_entry`).
-/

namespace Decompiler

open List Structuring

namespace Draft

variable {d : Draft}

/-- What is held inside a branch is inside it. -/
theorem mem_below_of_mem_refsOf (h : d.WellFormed) :
    ∀ {fuel b c e : Nat}, d.size ≤ fuel + b → c ∈ d.below fuel b →
    e ∈ d.refsOf c → e ∈ d.below fuel b := by
  intro fuel
  induction fuel with
  | zero => intro b c e _ hc; cases hc
  | succ fuel ih =>
    intro b c e hfuel hc he
    rw [below]
    refine mem_cons_of_mem b (mem_flatMap.mpr ?_)
    rcases mem_cons.mp hc with rfl | hc
    · obtain ⟨hlt, hsize⟩ := h.refs c e he
      obtain ⟨fuel, rfl⟩ : ∃ n, fuel = n + 1 := ⟨fuel - 1, by omega⟩
      exact ⟨e, he, .head _⟩
    · obtain ⟨x, hx, hc⟩ := mem_flatMap.mp hc
      have hlt := (h.refs b x hx).1
      exact ⟨x, hx, ih (by omega) hc he⟩

/-- If every branch but the first is held by a construct, the tree is made of all branches. -/
theorem mem_inTree_of_held (h : d.WellFormed)
    (hheld : ∀ b, b ≠ head → b < d.size → ∃ q k, d.Holds q k b) : ∀ b < d.size, b ∈ d.inTree := by
  intro b
  induction b using Nat.strong_induction_on with
  | _ b ih =>
    intro hb
    by_cases hhead : b = head
    · rw [hhead]
      exact (.head _)
    · obtain ⟨q, k, n, hn, href⟩ := hheld b hhead hb
      have hmem : b ∈ d.refsOf q := mem_flatMap.mpr ⟨n, mem_of_getElem? hn, href⟩
      have hlt := (h.refs q b hmem).1
      exact mem_below_of_mem_refsOf h (by omega) (ih q hlt (by omega)) hmem

end Draft

/-- A graph without cycles is structured, and its tree goes the ways of the graph. -/
theorem Structuring.Subject.Loopless.keeps_flow {subj : Subject} (hsubj : subj.Loopless)
    (hsound : subj.Sound) (hends : EndsAsWritten subj.graph)
    (hnone : noAddr ∉ subj.graph.nodes.keys) (labels : OrdMap Int String) :
    ∃ s tree, build subj (Build.start subj.graph.entry labels ∅) = .ok () s ∧
      bringGotosInLine subj.graph.uncondJumps subj.graph.succs s.draft.toTree = .ok tree ∧
      (∀ a ∈ subj.graph.nodes.keys, a ∈ treeKeys tree) ∧
        GoesAlong subj.graph (branchFlow subj.graph none tree) := by
  obtain ⟨s, hbuild⟩ := build_returns hsubj hsound labels ∅
  obtain ⟨hrun, hdone⟩ := run_of_placeAll hbuild
  have hacc₀ := Accounts.start subj hsubj.graph labels ∅
  have hacc := hacc₀.run hsubj.graph hrun
  have harrives₀ := Build.Arrives.start subj.graph labels ∅
  have harrives := harrives₀.run hsubj hrun
  have hsteady := (Build.Steady.start subj.graph labels ∅).run hsubj hnone harrives₀ hacc₀ hrun
  have hfits := ((OnWay.start hsound labels ∅).of_run hsound hrun).ready.fits
  have hkept : ∀ b a, ¬ s.Promises b a := by
    rintro b a (⟨t, ht, -⟩ | ⟨p, hp, -⟩)
    · rw [hdone] at ht
      cases ht
    · rw [harrives.pending_eq_none hsubj hacc hdone] at hp
      cases hp
  obtain ⟨hloopless, halong⟩ :=
    hsteady.flows.toTree hacc.bounded.draft hfits hkept hsubj.graph hends
  obtain ⟨tree, htree, hsame⟩ :=
    bringGotosInLine_flow hsubj.graph hends (hfits.asDrafted hsubj.graph _ _) hloopless halong
  refine ⟨s, tree, hbuild, htree, fun a ha => ?_, hsame ▸ halong⟩
  obtain ⟨b, hb⟩ := mem_allKeys.mp (hacc.keys.mem_iff.mpr
    (harrives.mem_visited hsubj hacc hdone a ha))
  have hlt := lt_size_of_mem_keysOf hb
  rw [treeKeys_bringGotosInLine htree]
  exact mem_treeKeys_toTree.mpr ⟨b, Draft.mem_inTree_of_held hacc.bounded.draft hsteady.held b hlt,
    hb⟩

/-- The function at an address is decompiled if its flow graph has no cycles and no node at the
address that stands for no code. Its tree then has every node of the graph, and from each of them
control gets to exactly the successors of the node: by running on behind it, by a goto, or past the
end of the branches around it. -/
theorem structure_keeps_flow {p p' : Program} (hp : p.Keyed) (hx : p.arch = .x86) {entry : Int}
    {g₀ g : Graph} (hfound : Graph.discover entry p = .ok (some g₀) p')
    (hblocks : g₀.blocks .x86 = .ok g) (hacyclic : g.Acyclic) (hnone : noAddr ∉ g.nodes.keys)
    (labels : OrdMap Int String) :
    ∃ nest s tree, g.loopNest = .ok nest ∧
      build ⟨.x86, g, nest, false⟩ (Build.start entry labels ∅) = .ok () s ∧
      bringGotosInLine g.uncondJumps g.succs s.draft.toTree = .ok tree ∧
      ∀ a ∈ g.nodes.keys, (∃ targets, (a, targets) ∈ branchFlow g none tree) ∧
        ∀ targets, (a, targets) ∈ branchFlow g none tree → ∀ b, b ∈ targets ↔ b ∈ g.next a := by
  obtain ⟨hwf, hclass, rfl⟩ := Graph.wellFormed_of_blocks hp hfound (hx ▸ hblocks)
  rw [hx] at hclass
  obtain ⟨nest, hnest, hsubj⟩ := Graph.loopNest_of_acyclic hwf hacyclic .x86
  obtain ⟨htables, hspurious⟩ := (Graph.hasNest_of_loopNest hnest).sound hwf
  have hends : EndsAsWritten g := fun a l i hl hlast =>
    Graph.blocks_ending hp hx hfound hblocks hl hlast
  obtain ⟨s, tree, hbuild, htree, hall, halong⟩ :=
    hsubj.keeps_flow ⟨hwf, hclass, htables, hspurious⟩ hends hnone labels
  refine ⟨nest, s, tree, hnest, hbuild, htree, fun a ha =>
    ⟨?_, fun targets hmem b => halong _ hmem b⟩⟩
  have hkey : a ∈ (branchFlow g none tree).map Prod.fst := by
    rw [branchFlow_keys]
    exact hall a ha
  obtain ⟨⟨_, targets⟩, hmem, rfl⟩ := mem_map.mp hkey
  exact ⟨targets, hmem⟩

/-- A graph whose edges all lead to higher addresses has no cycles. -/
theorem Graph.acyclic_of_ahead {g : Graph} (h : ∀ e ∈ g.succs.entries, ∀ b ∈ e.2, e.1 < b) :
    g.Acyclic := by
  have hedge : ∀ {a b : Int}, g.Edge a b → a < b := by
    intro a b hab
    rw [Graph.Edge, Graph.next, OrdMap.getD] at hab
    cases hl : g.succs.get? a with
    | none =>
      rw [hl] at hab
      cases hab
    | some l =>
      rw [hl] at hab
      exact h (a, l) (OrdMap.mem_entries_of_get? hl) b hab
  have hpath : ∀ {a b : Int}, Relation.TransGen g.Edge a b → a < b := by
    intro a b hab
    induction hab with
    | single hab => exact hedge hab
    | tail _ hbc ih => exact ih.trans (hedge hbc)
  exact fun a ha => lt_irrefl a (hpath ha)

/-- Two conditional jumps whose ways cross: one way is written as a goto, and another as an empty
branch. -/
theorem structure_keeps_flow_crossing :
    ∃ (p' : Program) (g₀ g : Graph),
      Graph.discover 0 (OneByte.program [.fork 2, .fork 3, .run, .ret]) = .ok (some g₀) p' ∧
      g₀.blocks .x86 = .ok g ∧ g.Acyclic ∧ noAddr ∉ g.nodes.keys ∧ g.nodes.keys = [0, 1, 2, 3] ∧
      ∃ nest s tree, g.loopNest = .ok nest ∧
        build ⟨.x86, g, nest, false⟩ (Build.start 0 ∅ ∅) = .ok () s ∧
        bringGotosInLine g.uncondJumps g.succs s.draft.toTree = .ok tree ∧
        ∀ a ∈ g.nodes.keys, (∃ targets, (a, targets) ∈ branchFlow g none tree) ∧
          ∀ targets, (a, targets) ∈ branchFlow g none tree → ∀ b, b ∈ targets ↔ b ∈ g.next a := by
  have hval : (OneByte.nested? [.fork 2, .fork 3, .run, .ret]).map (fun r =>
      (r.graph.nodes.keys, r.graph.succs.entries)) =
      some ([0, 1, 2, 3], [(0, [1, 2]), (1, [2, 3]), (2, [3])]) := by
    decide +kernel
  obtain ⟨r, hr, hvals⟩ := Option.map_eq_some_iff.mp hval
  obtain ⟨hkeys, hentries⟩ := Prod.mk.inj hvals
  obtain ⟨p', g₀, hfound, hblocks, -, -⟩ := OneByte.exists_of_nested? hr
  have hacyclic : r.graph.Acyclic := Graph.acyclic_of_ahead (by rw [hentries]; decide)
  have hnone : noAddr ∉ r.graph.nodes.keys := by
    rw [hkeys]
    decide
  exact ⟨p', g₀, r.graph, hfound, hblocks, hacyclic, hnone, hkeys,
    structure_keeps_flow (OneByte.program_keyed _) (OneByte.program_arch _) hfound hblocks hacyclic
      hnone ∅⟩

/-- A conditional jump to itself at the entry: no loop is found there, so the edge back is neither a
goto nor the end of a loop, and the tree goes on to the next instruction only. -/
theorem structure_loses_edge_to_entry :
    ∃ (p' : Program) (g₀ g : Graph) (nest : LoopNest) (s : Build) (tree : List Node),
      Graph.discover 0 (OneByte.program [.fork 0, .run]) = .ok (some g₀) p' ∧
        g₀.blocks .x86 = .ok g ∧
      g.loopNest = .ok nest ∧ build ⟨.x86, g, nest, false⟩ (Build.start 0 ∅ ∅) = .ok () s ∧
      bringGotosInLine g.uncondJumps g.succs s.draft.toTree = .ok tree ∧
      0 ∈ g.next 0 ∧ branchFlow g none tree = [(0, [1]), (1, [])] := by
  have hval : (OneByte.structured? [.fork 0, .run] false).map (fun r =>
      (r.graph.next 0, branchFlow r.graph none r.tree)) = some ([1, 0], [(0, [1]), (1, [])]) := by
    decide +kernel
  obtain ⟨r, hr, hvals⟩ := Option.map_eq_some_iff.mp hval
  obtain ⟨hnext, hflow⟩ := Prod.mk.inj hvals
  obtain ⟨p', g₀, hfound, hblocks, hnest, hbuild, htree⟩ := OneByte.exists_of_structured? hr
  exact ⟨p', g₀, r.graph, r.nest, r.build, r.tree, hfound, hblocks, hnest, hbuild, htree,
    by rw [hnext]; decide, hflow⟩

end Decompiler
