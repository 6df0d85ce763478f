import Decompiler.Proofs.CyclesFound
import Decompiler.Proofs.LoopBodies
/-!
# A loop is endless exactly if nothing else can be reached from it

The nodes recorded for a loop can all be reached from its start: the search for paths back goes
along edges, and a loop takes in another one only if it has the start of the other among its nodes.
So the record is part of what can be reached, and it is all of that exactly if no edge leaves it,
which is what marks a loop as endless (`Graph.endless_iff_all_reached`). In the draft of the code
the marks are found again: the body of a loop begins with the start of the loop that it was opened
for (`Draft.Headed`).
-/

namespace Decompiler

variable {start entry : Int}

/-! ## What is on a path is reached -/

namespace Graph

theorem reached_of_mem_paths {g : Graph} {x : Int} {barred : List Int}
    (h : x ∈ g.succs.paths start start barred) : Relation.ReflTransGen g.Edge start x :=
  Relation.ReflTransGen.mono (fun _ _ hedge => hedge.1) _ _ (Edges.waysBack_connected h).1

end Graph

/-! ## What is recorded for a loop is reached -/

/-- Whatever a table has for a loop can be reached from the loop's start. -/
def Graph.Reaches (g : Graph) (m : OrdMap LoopId (List Int)) : Prop :=
  ∀ k nodes, m.get? k = some nodes → ∀ a ∈ nodes, Relation.ReflTransGen g.Edge k.start a

namespace Graph.Reaches

variable {g : Graph} {m : OrdMap LoopId (List Int)}

theorem getD (h : g.Reaches m) {k : LoopId} {a : Int} (ha : a ∈ m.getD k []) :
    Relation.ReflTransGen g.Edge k.start a := by
  obtain ⟨nodes, hk, ha⟩ := OrdMap.exists_of_mem_getD ha
  exact h k nodes hk a ha

theorem insert (h : g.Reaches m) {k : LoopId} {nodes : List Int}
    (hnodes : ∀ a ∈ nodes, Relation.ReflTransGen g.Edge k.start a) :
    g.Reaches (m.insert k nodes) := by
  intro k' nodes' hk' a ha
  rcases OrdMap.of_get?_insert hk' with ⟨rfl, rfl⟩ | hk'
  · exact hnodes a ha
  · exact h k' nodes' hk' a ha

end Graph.Reaches

namespace Exploration

variable {g : Graph} {t t' : LoopTables}

/-- A loop takes in another one whose start it has. -/
theorem takeIn_reaches {key other : LoopId} (h : g.Reaches t.all)
    (hs : takeIn entry key t other = .ok t') : g.Reaches t'.all := by
  unfold takeIn at hs
  split at hs
  · rename_i hin
    simp only [Bool.and_eq_true, decide_eq_true_eq] at hin
    cases hother : t.all.get? other with
    | none =>
      rw [hother] at hs
      cases hs
    | some nodes =>
      rw [hother] at hs
      rw [← Except.ok.inj hs]
      refine h.insert fun a ha => ?_
      rcases mem_unite.mp ha with ha | ha
      · exact h.getD ha
      · exact (h.getD hin.2).trans (h other nodes hother a ha)
  · rw [← Except.ok.inj hs]
    exact h

theorem recordLoop_reaches (hown : g.Reaches t.own) (hall : g.Reaches t.all)
    (hs : recordLoop entry t start = .ok t') : g.Reaches t'.all := by
  unfold recordLoop at hs
  refine foldlM_invariant (fun t : LoopTables => g.Reaches t.all)
    (fun _ _ _ _ ht hstep => takeIn_reaches ht hstep) ?_ hs
  exact hall.insert fun a ha => hown.getD ha

/-- What a search finds is on paths back to where they began. -/
theorem Detects.reaches {f : Frame} {tried found : List Int} (hs : Detects g f tried t found t')
    (h : g.Reaches t.own) : g.Reaches t'.own := by
  intro k nodes hk a ha
  rcases hs.get?_own hk with ⟨-, -, rfl⟩ | hk
  · exact Graph.reached_of_mem_paths ha
  · exact h k nodes hk a ha

/-- In a state of the search, whatever is recorded for a loop can be reached from its start. -/
def Config.Reached (g : Graph) : Config → Prop
  | .running _ _ t => g.Reaches t.own ∧ g.Reaches t.all
  | .failed _ => True

theorem Config.Reached.step {c c' : Config} (h : c.Reached g) (hstep : Step g c c') :
    c'.Reached g := by
  cases hstep with
  | wait | enter | pause | descend | resume | settle | leave => exact h
  | strand | misrecord => trivial
  | search _ hs =>
    have hall := congrArg LoopTables.all hs.searched.detects.rest
    exact ⟨hs.searched.detects.reaches h.1, hall ▸ h.2⟩
  | record _ hs => exact ⟨own_of_recordLoop hs ▸ h.1, recordLoop_reaches h.1 h.2 hs⟩

theorem Config.Reached.of_reaches {c : Config} (h : Reaches g (Config.start g) c) :
    c.Reached g := by
  induction h with
  | refl =>
    have hempty : g.Reaches ∅ := by
      intro k nodes hk
      cases hk
    exact ⟨hempty, hempty⟩
  | tail _ hstep ih => exact ih.step hstep

end Exploration

/-- The loops that a run finds hold what can be reached from their starts. -/
theorem Graph.Finds.reaches {g : Graph} {t : LoopTables} {equiv : OrdMap LoopId (List LoopId)}
    {spurious : List LoopId} (h : g.Finds t equiv spurious) : g.Reaches t.all := by
  obtain ⟨waiting, found, hreach, -, hall⟩ := h.exists_run
  exact hall ▸ (Exploration.Config.Reached.of_reaches hreach).2

/-! ## Endless loops -/

namespace Graph

variable {g : Graph} {nest : LoopNest} {k : LoopId} {nodes : List Int}

theorem isEndless_iff :
    LoopNest.isEndless g nodes = true ↔ ∀ a ∈ nodes, ∀ b, g.Edge a b → b ∈ nodes := by
  simp [LoopNest.isEndless, Edge]

theorem HasNest.mem_endless (hg : g.WellFormed) (h : g.HasNest nest) :
    k ∈ nest.endless ↔ ∃ nodes, (k, nodes) ∈ nest.tables.all.entries ∧
      LoopNest.isEndless g nodes = true := by
  obtain ⟨t, equiv, spurious, hfinds, hnest⟩ := h
  obtain ⟨-, -, rfl⟩ := hfinds.sound hg
  obtain ⟨closing, -, rfl⟩ := closing_of_assemble hnest
  simp

/-- Nodes that can be reached from one of them are all that can be, exactly if no edge leaves
them. -/
theorem closed_iff_all_reached (hstart : start ∈ nodes)
    (hreached : ∀ a ∈ nodes, Relation.ReflTransGen g.Edge start a) :
    (∀ a ∈ nodes, ∀ b, g.Edge a b → b ∈ nodes) ↔ ∀ a, a ∈ nodes ↔
      Relation.ReflTransGen g.Edge start a := by
  constructor
  · intro hclosed a
    refine ⟨hreached a, fun ha => ?_⟩
    induction ha with
    | refl => exact hstart
    | tail _ hedge ih => exact hclosed _ ih _ hedge
  · intro hall a ha b hedge
    exact (hall b).mpr (((hall a).mp ha).tail hedge)

/-- A recorded loop is marked as endless exactly if its nodes are all that can be reached from its
start. -/
theorem mem_endless_iff (hg : g.WellFormed) (h : g.HasNest nest)
    (hk : nest.tables.all.get? k = some nodes) :
    k ∈ nest.endless ↔ ∀ a, a ∈ nodes ↔ Relation.ReflTransGen g.Edge k.start a := by
  obtain ⟨hsound, -⟩ := h.sound hg
  have hround := hsound.all_round k nodes hk
  have hreached : g.Reaches nest.tables.all := by
    obtain ⟨t, equiv, spurious, hfinds, hnest⟩ := h
    exact ((hfinds.assemble_iff hg).2 nest hnest).1 ▸ hfinds.reaches
  rw [← closed_iff_all_reached hround.start_mem (hreached k nodes hk), ← isEndless_iff,
    h.mem_endless hg]
  constructor
  · rintro ⟨nodes', hmem, hendless⟩
    rw [OrdMap.get?_of_mem_entries hsound.all_nodup hmem] at hk
    rwa [← Option.some.inj hk]
  · intro hendless
    exact ⟨nodes, OrdMap.mem_entries_of_get? hk, hendless⟩

end Graph

open Structuring

/-- The marks for endless loops are exact in every nest of a function. Only recorded loops have one,
and a recorded loop has it exactly if its nodes are all that can be reached from its start; then
every node that can be reached leads on, so none of them returns. A loop that is written in the
draft of the code begins with the start of a recorded loop, and is written as endless exactly if
that loop has the mark. -/
theorem Graph.endless_iff_all_reached {p p' : Program} (hp : p.Keyed) {entry : Int} {g₀ g : Graph}
    (hfound : Graph.discover entry p = .ok (some g₀) p') (hblocks : g₀.blocks p.arch = .ok g)
    {nest : LoopNest} (hnest : g.HasNest nest) :
    (∀ k ∈ nest.endless, k ∈ nest.tables.all.keys) ∧
    (∀ k nodes, nest.tables.all.get? k = some nodes →
      (k ∈ nest.endless ↔ ∀ a, a ∈ nodes ↔ Relation.ReflTransGen g.Edge k.start a) ∧
      (k ∈ nest.endless → ∀ a, Relation.ReflTransGen g.Edge k.start a → ∃ b, g.Edge a b)) ∧
    ∀ (further : Bool) (labels : OrdMap Int String) (s : Build),
      Run ⟨p.arch, g, nest, further⟩ (Build.start entry labels ∅) s →
      ∀ b endless body, .loop endless body ∈ s.draft.nodes b →
        ∃ k ∈ nest.tables.all.keys, endless = decide (k ∈ nest.endless) ∧
          ∃ n, (s.draft.nodes body).head? = some n ∧ n.key? = some k.start := by
  obtain ⟨hwf, hclass, rfl⟩ := Graph.wellFormed_of_blocks hp hfound hblocks
  obtain ⟨hsound, hspurious⟩ := hnest.sound hwf
  refine ⟨fun k hk => ?_, fun k nodes hk =>
    ⟨Graph.mem_endless_iff hwf hnest hk, fun hendless a ha => ?_⟩, fun further labels s hrun => ?_⟩
  · obtain ⟨nodes, hmem, -⟩ := (hnest.mem_endless hwf).mp hk
    exact List.mem_map_of_mem hmem
  · -- Every node of a loop leads on inside the loop.
    have hin := ((Graph.mem_endless_iff hwf hnest hk).mp hendless a).mpr ha
    obtain ⟨b, -, hedge⟩ := (hsound.all_round k nodes hk).next a hin
    exact ⟨b, hedge⟩
  · have hsubj : Subject.Sound ⟨p.arch, g, nest, further⟩ := ⟨hwf, hclass, hsound, hspurious⟩
    exact headed_of_run hsubj hrun

/-- A loop that is left after its first round, and one that is never left: the first has a way out
to a node that is not its own, the second holds all that can be reached from it and is written as
endless. -/
theorem Graph.endless_iff_all_reached_two_loops :
    ∃ (p' : Program) (g₀ g : Graph) (nest : LoopNest) (s : Build),
      Graph.discover 0 (OneByte.program [.fork 4, .run, .fork 1, .ret, .run, .jump 4]) =
      .ok (some g₀) p' ∧ g₀.blocks .x86 = .ok g ∧ g.loopNest = .ok nest ∧
      Run ⟨.x86, g, nest, true⟩ (Build.start 0 ∅ ∅) s ∧
      (∃ nodes, nest.tables.all.get? ⟨0, 1⟩ = some nodes ∧
        ¬ ∀ a, a ∈ nodes ↔ Relation.ReflTransGen g.Edge 1 a) ∧
      (∃ nodes, nest.tables.all.get? ⟨0, 4⟩ = some nodes ∧
        ∀ a, a ∈ nodes ↔ Relation.ReflTransGen g.Edge 4 a) ∧
      (∀ a, Relation.ReflTransGen g.Edge 4 a → ∃ b, g.Edge a b) ∧
      ∃ body, .loop true body ∈ s.draft.nodes 0 ∧
        ∃ k ∈ nest.endless, ∃ n, (s.draft.nodes body).head? = some n ∧ n.key? = some k.start := by
  have hval : (OneByte.structured? [.fork 4, .run, .fork 1, .ret, .run, .jump 4] true).map (fun r =>
      (r.nest.tables.all.get? ⟨0, 1⟩, r.nest.tables.all.get? ⟨0, 4⟩, r.nest.endless,
        (List.range 5).filter fun body => .loop true body ∈ r.build.draft.nodes 0)) =
      some (some [2, 1], some [5, 4], [⟨0, 4⟩], [3]) := by
    decide +kernel
  obtain ⟨r, hr, hvals⟩ := Option.map_eq_some_iff.mp hval
  obtain ⟨hleft, hvals⟩ := Prod.mk.inj hvals
  obtain ⟨hstays, hvals⟩ := Prod.mk.inj hvals
  obtain ⟨hmarks, hbody⟩ := Prod.mk.inj hvals
  obtain ⟨p', g₀, hfound, hblocks, hnest, hbuild, -⟩ := OneByte.exists_of_structured? hr
  obtain ⟨-, hexact, hdraft⟩ :=
    Graph.endless_iff_all_reached (OneByte.program_keyed _) hfound hblocks
    (Graph.hasNest_of_loopNest hnest)
  obtain ⟨hrun, -⟩ := run_of_placeAll hbuild
  have hmark : (⟨0, 4⟩ : LoopId) ∈ r.nest.endless := by rw [hmarks]; decide
  have hnone : (⟨0, 1⟩ : LoopId) ∉ r.nest.endless := by rw [hmarks]; decide
  refine ⟨p', g₀, r.graph, r.nest, r.build, hfound, hblocks, hnest, hrun,
    ⟨_, hleft, fun hall => hnone ((hexact _ _ hleft).1.mpr hall)⟩,
    ⟨_, hstays, (hexact _ _ hstays).1.mp hmark⟩, (hexact _ _ hstays).2 hmark, 3, ?_⟩
  have hloop : DraftNode.loop true 3 ∈ r.build.draft.nodes 0 := by
    have hin : 3 ∈ (List.range 5).filter fun body => .loop true body ∈ r.build.draft.nodes 0 := by
      rw [hbody]; decide
    exact of_decide_eq_true (List.mem_filter.mp hin).2
  obtain ⟨k, -, hendless, hbegins⟩ := hdraft true ∅ r.build hrun 0 true 3 hloop
  exact ⟨hloop, k, of_decide_eq_true hendless.symm, hbegins⟩

end Decompiler
