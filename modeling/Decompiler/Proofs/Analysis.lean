import Decompiler.Proofs.GotoPasses
import Decompiler.Proofs.Progress
/-!
# When the analysis of a function goes through

The analysis of a function finds the loops of its graph, nests them, places the nodes, and brings
the gotos of the tree in line. Each of these parts can fail in its own way: a loop from the entry is
not recorded in time, a search backwards from the end of a loop gets to an entry that has no
predecessors, a task comes first to a node that waits for others, or a branch ends in a goto in
front of a loop that does not begin with a block. Nothing else fails, so the analysis goes through
exactly if none of this happens (`analysis_returns_iff`).
-/

namespace Decompiler

open LoopNest Structuring

/-- A structuring ends in one state only. -/
theorem Structuring.Run.unique_end {subj : Subject} {s₀ s s' : Build} (h : Run subj s₀ s)
    (h' : Run subj s₀ s') (hend : s.tasks = []) (hend' : s'.tasks = []) : s = s' := by
  have hstays : ∀ {x y : Build}, x.tasks = [] → Run subj x y → x = y := by
    intro x y hx hxy
    rcases Relation.ReflTransGen.cases_head hxy with rfl | ⟨z, ⟨t, rest, htasks, -⟩, -⟩
    · rfl
    · rw [hx] at htasks
      cases htasks
  rcases Relation.ReflTransGen.total_of_right_unique (step_rightUnique subj) h h' with hon | hback
  · exact hstays hend hon
  · exact (hstays hend' hback).symm

/-- The code of a graph is placed and brought in line exactly if no task is stuck and, at the end,
no branch ends in a goto in front of a loop that cannot be asked where it starts. -/
theorem structuring_returns_iff {subj : Subject} (hsubj : subj.Sound) (labels : OrdMap Int String) :
    (∃ s tree, build subj (Build.start subj.graph.entry labels ∅) = .ok () s ∧
        bringGotosInLine subj.graph.uncondJumps subj.graph.succs s.draft.toTree = .ok tree) ↔
      (¬ ∃ s task rest, Run subj (Build.start subj.graph.entry labels ∅) s ∧
        s.tasks = task :: rest ∧ Stuck subj { s with tasks := rest } task) ∧
      ∀ s, Run subj (Build.start subj.graph.entry labels ∅) s → s.tasks = [] →
        branchClear [] s.draft.toTree := by
  have h₀ := OnWay.start hsubj labels ∅
  have hclear : ∀ {s}, Run subj (Build.start subj.graph.entry labels ∅) s →
      ((∃ tree, bringGotosInLine subj.graph.uncondJumps subj.graph.succs s.draft.toTree =
        .ok tree) ↔ branchClear [] s.draft.toTree) := fun hrun =>
    bringGotosInLine_ok_iff ((h₀.of_run hsubj hrun).ready.fits.asDrafted hsubj.graph _ _)
  rw [← build_fails_iff hsubj labels ∅]
  constructor
  · rintro ⟨s, tree, hbuild, htree⟩
    obtain ⟨hrun, hend⟩ := run_of_placeAll hbuild
    refine ⟨?_, fun s' hrun' hend' => ?_⟩
    · rintro ⟨e, s', hfail⟩
      rw [hbuild] at hfail
      cases hfail
    · rw [← hrun.unique_end hrun' hend hend']
      exact (hclear hrun).mp ⟨tree, htree⟩
  · rintro ⟨hok, hends⟩
    cases hbuild : build subj (Build.start subj.graph.entry labels ∅) with
    | error e s => exact absurd ⟨e, s, hbuild⟩ hok
    | ok r s =>
      obtain ⟨hrun, hend⟩ := run_of_placeAll hbuild
      obtain ⟨tree, htree⟩ := (hclear hrun).mpr (hends s hrun hend)
      exact ⟨s, tree, rfl, htree⟩

/-- The analysis of a function goes through exactly if its loops are found, no search for the last
part of a loop gets to an entry without predecessors, no task is stuck, and no branch ends in a goto
in front of a loop that cannot be asked where it starts. Joining blocks never fails, and the search
for loops fails only where a loop is not recorded in time, which takes an edge back to the entry.
All this holds in whatever order sets are gone through; the order of insertion is one of these. -/
theorem analysis_returns_iff {p p' : Program} (hp : p.Keyed) {entry : Int} {g₀ : Graph}
    (hfound : Graph.discover entry p = .ok (some g₀) p') :
    ∃ g, g₀.blocks p.arch = .ok g ∧
      (∀ e, Exploration.Reaches g (.start g) (.failed e) → (∃ start, e = .noLoop start) ∧
        entry ∈ g.preds.keys) ∧
      Meets (fun t => ∃ equiv spurious, g.Finds t equiv spurious ∧
        g.loopNest = assemble g t equiv spurious)
        (fun e => Exploration.Reaches g (.start g) (.failed e) ∧ g.loopNest = .error e) g.loops ∧
      ∀ t equiv spurious, g.Finds t equiv spurious →
        ∀ (further : Bool) (labels : OrdMap Int String),
        (∃ nest s tree, assemble g t equiv spurious = .ok nest ∧
          build ⟨p.arch, g, nest, further⟩ (Build.start entry labels ∅) = .ok () s ∧
          bringGotosInLine g.uncondJumps g.succs s.draft.toTree = .ok tree) ↔
        (∀ e ∈ t.all.entries, ¬ BackToEntry g e.1.start e.2) ∧
          ∀ nest, assemble g t equiv spurious = .ok nest →
            (¬ ∃ s task rest, Run ⟨p.arch, g, nest, further⟩ (Build.start entry labels ∅) s ∧
              s.tasks = task :: rest ∧
              Stuck ⟨p.arch, g, nest, further⟩ { s with tasks := rest } task) ∧
            ∀ s, Run ⟨p.arch, g, nest, further⟩ (Build.start entry labels ∅) s → s.tasks = [] →
              branchClear [] s.draft.toTree := by
  obtain ⟨hwf₀, hclass₀, hentry₀⟩ := Graph.discover_wellFormed hp hfound
  obtain ⟨g, hblocks, hwf, hclass, hsame⟩ := Graph.blocks_wellFormed hwf₀ hclass₀
  obtain rfl : g.entry = entry := hsame.entry.trans hentry₀
  refine ⟨g, hblocks, fun e he => Exploration.Config.Booked.of_reaches hwf he, ?_,
    fun t equiv spurious hfinds further labels => ?_⟩
  · have hrun := Exploration.loops_run hwf
    cases hloops : g.loops with
    | error e =>
      rw [hloops] at hrun
      exact ⟨hrun, by rw [Graph.loopNest, hloops]; rfl⟩
    | ok t => exact ⟨_, _, Graph.finds_of_loops hloops, by rw [Graph.loopNest, hloops]; rfl⟩
  · obtain ⟨hiff, -⟩ := hfinds.assemble_iff hwf
    have hsubj : ∀ {nest}, assemble g t equiv spurious = .ok nest →
        Subject.Sound ⟨p.arch, g, nest, further⟩ :=
      fun hnest => (Graph.HasNest.subject ⟨t, equiv, spurious, hfinds, hnest⟩ hp hfound hblocks
        further).1
    constructor
    · rintro ⟨nest, s, tree, hnest, hbuild, htree⟩
      refine ⟨hiff.mp ⟨nest, hnest⟩, fun nest' hnest' => ?_⟩
      obtain rfl : nest = nest' := Except.ok.inj (hnest.symm.trans hnest')
      exact (structuring_returns_iff (hsubj hnest) labels).mp ⟨s, tree, hbuild, htree⟩
    · rintro ⟨hback, hrest⟩
      obtain ⟨nest, hnest⟩ := hiff.mpr hback
      obtain ⟨s, tree, hbuild, htree⟩ :=
        (structuring_returns_iff (hsubj hnest) labels).mpr (hrest nest hnest)
      exact ⟨nest, s, tree, hnest, hbuild, htree⟩

/-- The analysis of a loop with two ways out goes through, and meets none of the obstacles. -/
theorem analysis_returns_iff_loop :
    ∃ (p' : Program) (g₀ g : Graph) (t : LoopTables),
      Graph.discover 0 (OneByte.program [.run, .fork 5, .fork 4, .jump 1, .run, .ret]) =
        .ok (some g₀) p' ∧
      g₀.blocks .x86 = .ok g ∧ g.loops = .ok t ∧
        (∀ e ∈ t.all.entries, ¬ BackToEntry g e.1.start e.2) ∧
      ∃ nest s tree, g.loopNest = .ok nest ∧
        build ⟨.x86, g, nest, true⟩ (Build.start 0 ∅ ∅) = .ok () s ∧
        bringGotosInLine g.uncondJumps g.succs s.draft.toTree = .ok tree := by
  have hval : (OneByte.structured? [.run, .fork 5, .fork 4, .jump 1, .run, .ret] true).isSome =
      true := by
    decide +kernel
  obtain ⟨r, hr⟩ := Option.isSome_iff_exists.mp hval
  obtain ⟨p', g₀, hfound, hblocks, hnest, hbuild, htree⟩ := OneByte.exists_of_structured? hr
  obtain ⟨g, hblocks', -, -, hiff⟩ := analysis_returns_iff (OneByte.program_keyed _) hfound
  obtain rfl : r.graph = g := Except.ok.inj (hblocks.symm.trans hblocks')
  obtain ⟨t, ht, hassemble⟩ := Except.bind_eq_ok.mp hnest
  obtain ⟨hback, -⟩ := (hiff t _ _ (Graph.finds_of_loops ht) true ∅).mp
    ⟨r.nest, r.build, r.tree, hassemble, hbuild, htree⟩
  exact ⟨p', g₀, r.graph, t, hfound, hblocks, ht, hback, r.nest, r.build, r.tree, hnest,
    hbuild, htree⟩

/-- What the passes over gotos fail with, if they fail. -/
def OneByte.Nested.fault? (r : OneByte.Nested) (further : Bool) : Option Fault :=
  match build ⟨.x86, r.graph, r.nest, further⟩ (Build.start 0 ∅ ∅) with
  | .error _ _ => none
  | .ok _ s =>
    match bringGotosInLine r.graph.uncondJumps r.graph.succs s.draft.toTree with
    | .error e => some e
    | .ok _ => none

theorem OneByte.Nested.bringGotosInLine_of_fault? {r : OneByte.Nested} {further : Bool} {e : Fault}
    (h : r.fault? further = some e) :
    ∃ s, build ⟨.x86, r.graph, r.nest, further⟩ (Build.start 0 ∅ ∅) = .ok () s ∧
      bringGotosInLine r.graph.uncondJumps r.graph.succs s.draft.toTree = .error e := by
  unfold OneByte.Nested.fault? at h
  split at h
  · cases h
  · rename_i s hbuild
    split at h
    · rename_i htree
      obtain rfl := Option.some.inj h
      exact ⟨s, hbuild, htree⟩
    · cases h

/-- A conditional jump in front of a loop that begins with another one: the passes over gotos fail,
with further conditions or without, since the loop is asked for the block at its start and has
none. -/
theorem analysis_fails_at_mute_loop :
    ∃ (p' : Program) (g₀ g : Graph) (nest : LoopNest),
      Graph.discover 0 (OneByte.program [.fork 1, .fork 1, .jump 1]) = .ok (some g₀) p' ∧
      g₀.blocks .x86 = .ok g ∧ g.loopNest = .ok nest ∧
      ∀ further, ∃ s, build ⟨.x86, g, nest, further⟩ (Build.start 0 ∅ ∅) = .ok () s ∧
        bringGotosInLine g.uncondJumps g.succs s.draft.toTree = .error .notABlock := by
  have hval : (OneByte.nested? [.fork 1, .fork 1, .jump 1]).map (fun r =>
      [true, false].all fun further => r.fault? further = some .notABlock) = some true := by
    decide +kernel
  obtain ⟨r, hr, hfails⟩ := Option.map_eq_some_iff.mp hval
  obtain ⟨p', g₀, hfound, hblocks, -, hnest⟩ := OneByte.exists_of_nested? hr
  refine ⟨p', g₀, r.graph, r.nest, hfound, hblocks, hnest, fun further => ?_⟩
  have hfurther := List.all_eq_true.mp hfails further (by cases further <;> simp)
  exact OneByte.Nested.bringGotosInLine_of_fault? (of_decide_eq_true hfurther)

end Decompiler
