import Decompiler.Proofs.JoinEnds
import Decompiler.Proofs.LoopExits
import Decompiler.Proofs.PathQueries
/-!
# Every structuring comes to an end

A structuring takes one task a step. A step that adds tasks places a node, no node is placed twice,
and a node leads to at most two others, so that there are at most twice as many steps as nodes, and
one more. Where it stops, nothing is left to place, or an edge has come first that is not waited
for. The searches for joins that it makes on its way come to an end too, whatever the order in which
they go through their sets, and the order makes no difference to what they give
(`Graph.structuring_terminates`).
-/

namespace Decompiler

namespace Structuring

variable {subj : Subject} {s s' s₀ : Build} {t : Task}

/-! ## The answers about paths -/

theorem placeNode_memo (hg : subj.graph.WellFormed) {scope : Scope} {b level : Nat}
    {insns : List Insn} (hs : placeNode subj scope b level t insns s = .ok () s')
    (hnode : subj.graph.nodes.get? t.addr = some insns) :
    s'.memo = s.memo ∨
      ∃ scope source found, subj.graph.joinPoint subj.nest scope s.memo source =
        .ok (found, s'.memo) := by
  have hput := placeNode_put hg scope b level s hnode
  rw [hs] at hput
  cases hput with
  | stop | step => exact .inl rfl
  | fork _ _ hforked =>
    cases hforked with
    | leaves | narrows => exact .inl rfl
    | parted _ hjoin => exact .inr ⟨_, _, _, hjoin⟩

/-- A step keeps the answers about paths, but for what a search for a join makes of them. -/
theorem place_memo (hg : subj.graph.WellFormed) (hs : place subj t s = .ok () s') :
    s'.memo = s.memo ∨
    ∃ scope source found, subj.graph.joinPoint subj.nest scope s.memo source =
      .ok (found, s'.memo) := by
  obtain ⟨-, rfl⟩ | ⟨insns, b, loops, hnode, -, ⟨-, hs⟩ | ⟨-, r, s₁, hgather, hs⟩⟩ := place_eq_ok hs
  · exact .inl rfl
  · obtain ⟨needed, -, rfl⟩ := referBack_eq_ok hs
    exact .inl rfl
  · have hmemo : s₁.memo = s.memo := by
      obtain ⟨-, -, p, -, rfl⟩ | ⟨best, d, waiting, -, -, rfl⟩ := gather_awaits hgather
      · rfl
      · rfl
    obtain ⟨-, rfl⟩ | ⟨best, level, -, hs⟩ := hs
    · exact .inl hmemo
    · rw [← hmemo]
      rw [settle_eq] at hs
      split at hs
      · have hplaced := placeNode_memo hg hs hnode
        exact hplaced
      · have hplaced := placeNode_memo hg hs hnode
        exact hplaced

/-- In every state of a run the answers about paths are true. -/
theorem Run.truthful (hg : subj.graph.WellFormed) (hrun : Run subj s₀ s)
    (h₀ : subj.graph.succs.Truthful s₀.memo) : subj.graph.succs.Truthful s.memo := by
  induction hrun with
  | refl => exact h₀
  | @tail s₁ _ _ hstep ih =>
    obtain ⟨t, rest, -, hplace⟩ := hstep
    rcases place_memo hg hplace with hsame | ⟨scope, source, found, hjoin⟩
    · exact hsame ▸ ih
    · exact Graph.joinPoint_truthful hg ih hjoin

/-! ## Steps -/

/-- A run has no more steps than there is to do at its beginning. -/
theorem length_le_load (hsubj : subj.Sound) (h₀ : OnWay subj s₀ s₀) {run : Nat → Build}
    (hstart : run 0 = s₀) :
    ∀ {n : Nat}, (∀ i < n, Step subj (run i) (run (i + 1))) →
      OnWay subj s₀ (run n) ∧ n + load subj (run n) ≤ load subj s₀ := by
  intro n
  induction n with
  | zero =>
    intro _
    rw [hstart]
    exact ⟨h₀, by omega⟩
  | succ n ih =>
    intro hsteps
    obtain ⟨hon, hload⟩ := ih fun i hi => hsteps i (Nat.lt_succ_of_lt hi)
    have hstep := hsteps n (Nat.lt_succ_self n)
    have hon' : OnWay subj s₀ (run (n + 1)) := h₀.of_run hsubj (hon.run.tail hstep)
    have hless := load_step hsubj.graph hon.accounts hon'.accounts hstep
    exact ⟨hon', by omega⟩

/-- Where a run stops, nothing is left to place, or the next task comes first though it is not
waited for. -/
theorem OnWay.stops (hsubj : subj.Sound) (h : OnWay subj s₀ s) (hstuck : ¬ ∃ s', Step subj s s') :
    s.tasks = [] ∨
      ∃ t rest a s', s.tasks = t :: rest ∧
        place subj t { s with tasks := rest } = .error (.notAwaited a) s' := by
  cases htasks : s.tasks with
  | nil => exact .inl rfl
  | cons t rest =>
    cases hplace : place subj t { s with tasks := rest } with
    | ok r s' => exact absurd ⟨s', t, rest, htasks, hplace⟩ hstuck
    | error e s' =>
      obtain ⟨a, rfl⟩ := h.place_fault hsubj htasks hplace
      exact .inr ⟨t, rest, a, s', rfl, hplace⟩

/-- With steps enough, a structuring places all there is to place, or comes to an edge that is not
waited for. -/
theorem placeAll_ends (hsubj : subj.Sound) {fuel : Nat} (h : OnWay subj s₀ s)
    (hload : load subj s < fuel) :
    Does (fun _ s' => Run subj s₀ s' ∧ s'.tasks = []) (fun e => ∃ a, e = .notAwaited a)
      (placeAll subj fuel s) := by
  refine (h.finishes hsubj hload).mono (fun _ s' hs' => ⟨hs'.1.run, hs'.2⟩) ?_
  rintro e ⟨s₁, t, rest, s₂, h₁, htasks, hplace⟩
  exact h₁.place_fault hsubj htasks hplace

end Structuring

open Structuring

/-! ## Functions -/

/-- The structuring of a function, with any of its nests, makes at most twice as many steps as its
graph has nodes, and one more. It stops only where nothing is left to place or an edge comes first
that is not waited for, and so does `build`. In every state of it the answers about paths are true.
With such answers, no search for a join goes on for ever, in whatever order it goes through its
sets; where it stops, it gives the one answer that `Graph.joinPoint` gives with any such answers. A
question about a path needs no more steps than it is given. -/
theorem Graph.structuring_terminates {p p' : Program} (hp : p.Keyed) {entry : Int} {g₀ g : Graph}
    (hfound : Graph.discover entry p = .ok (some g₀) p') (hblocks : g₀.blocks p.arch = .ok g)
    {nest : LoopNest} (hnest : g.HasNest nest) (further : Bool) (labels : OrdMap Int String) :
    (∀ (n : Nat) (run : Nat → Build), run 0 = Build.start entry labels ∅ →
      (∀ i < n, Step ⟨p.arch, g, nest, further⟩ (run i) (run (i + 1))) → n ≤ 2 * g.nodes.size + 1) ∧
    (∀ s, Run ⟨p.arch, g, nest, further⟩ (Build.start entry labels ∅) s →
      (¬ ∃ s', Step ⟨p.arch, g, nest, further⟩ s s') →
      s.tasks = [] ∨ ∃ t rest a s', s.tasks = t :: rest ∧
        place ⟨p.arch, g, nest, further⟩ t { s with tasks := rest } = .error (.notAwaited a) s') ∧
    Does (fun _ s => Run ⟨p.arch, g, nest, further⟩ (Build.start entry labels ∅) s ∧ s.tasks = [])
      (fun e => ∃ a, e = .notAwaited a)
        (build ⟨p.arch, g, nest, further⟩ (Build.start entry labels ∅)) ∧
    (∀ s, Run ⟨p.arch, g, nest, further⟩ (Build.start entry labels ∅) s → g.succs.Truthful s.memo) ∧
    (∀ memo, g.succs.Truthful memo → ∀ scope source,
      (¬ ∃ run : Nat → JoinPoint.Config, run 0 = .start g memo source ∧
        ∀ n, JoinPoint.Step g nest scope source (run n) (run (n + 1))) ∧
      ∀ c, JoinPoint.Reaches g nest scope source (.start g memo source) c →
        (¬ ∃ c', JoinPoint.Step g nest scope source c c') →
        ∀ memo', g.succs.Truthful memo' →
          c.Gives nest scope (g.joinPoint nest scope memo' source)) ∧
    ∀ goal fuel addr, g.succs.size + 2 ≤ fuel →
      g.succs.reachFrom goal fuel addr [] = g.succs.reachFrom goal (g.succs.size + 2) addr [] := by
  obtain ⟨hsubj, rfl⟩ := hnest.subject hp hfound hblocks further
  have h₀ : OnWay ⟨p.arch, g, nest, further⟩ (Build.start g.entry labels ∅)
      (Build.start g.entry labels ∅) :=
    OnWay.start hsubj labels ∅
  have hload : load ⟨p.arch, g, nest, further⟩ (Build.start g.entry labels ∅) = 2 *
      g.nodes.size + 1 := by
    simp only [load, Build.start, List.length_singleton, List.length_nil]
    omega
  refine ⟨fun n run hstart hsteps => ?_, fun s hrun => (h₀.of_run hsubj hrun).stops hsubj, ?_,
    fun s hrun => hrun.truthful hsubj.graph (Edges.Truthful.empty _), fun memo hmemo scope source =>
    ⟨?_, ?_⟩, fun goal fuel addr hfuel => ?_⟩
  · have hlen := (length_le_load hsubj h₀ hstart hsteps).2
    omega
  · exact placeAll_ends hsubj h₀ (hload ▸ by dsimp only; omega)
  · exact JoinPoint.start_ends hmemo source
  · exact fun c hreach hstuck memo' hmemo' =>
      Graph.gives_of_stuck hsubj.graph hmemo hmemo' hreach hstuck
  · have huntried : g.succs.untried [] ≤ g.succs.size := g.succs.untried_le_size []
    exact Edges.reachFrom_steps fuel _ addr [] (by omega) (by omega)

/-- Two nodes each of which waits for one that the fork at 4 does not lead to: the search from there
stops waiting for both, and finds no node at which the ways meet. -/
theorem Graph.structuring_terminates_crossing :
    ∃ (p' : Program) (g₀ g : Graph) (nest : LoopNest),
      Graph.discover 0 (OneByte.program [.fork 4, .fork 8, .jump 7, .ret, .fork 6, .jump 7, .jump 8,
        .ret, .ret]) = .ok (some g₀) p' ∧ g₀.blocks .x86 = .ok g ∧ g.loopNest = .ok nest ∧
      (∃ memo, g.joinPoint nest ⟨none, 0, none⟩ ∅ 4 = .ok (none, memo)) ∧
      (¬ ∃ run : Nat → JoinPoint.Config, run 0 = .start g ∅ 4 ∧
        ∀ n, JoinPoint.Step g nest ⟨none, 0, none⟩ 4 (run n) (run (n + 1))) ∧
      ∀ (n : Nat) (run : Nat → Build), run 0 = Build.start 0 ∅ ∅ →
        (∀ i < n, Step ⟨.x86, g, nest, true⟩ (run i) (run (i + 1))) → n ≤ 17 := by
  have hval : (OneByte.nested? [.fork 4, .fork 8, .jump 7, .ret, .fork 6, .jump 7, .jump 8, .ret,
      .ret]).map (fun r =>
      (r.graph.nodes.size, (r.graph.joinPoint r.nest ⟨none, 0, none⟩ ∅ 4).toOption.map Prod.fst)) =
      some (8, some none) := by
    decide +kernel
  obtain ⟨r, hr, hval⟩ := Option.map_eq_some_iff.mp hval
  obtain ⟨hsize, hjoin⟩ := Prod.mk.inj hval
  obtain ⟨p', g₀, hfound, hblocks, -, hnest⟩ := OneByte.exists_of_nested? hr
  obtain ⟨hsteps, -, -, -, hsearch, -⟩ :=
    Graph.structuring_terminates (OneByte.program_keyed _) hfound hblocks
      (Graph.hasNest_of_loopNest hnest) true ∅
  refine ⟨p', g₀, r.graph, r.nest, hfound, hblocks, hnest, ?_,
    (hsearch ∅ (Edges.Truthful.empty _) _ 4).1, ?_⟩
  · cases hj : r.graph.joinPoint r.nest ⟨none, 0, none⟩ ∅ 4 with
    | error e =>
      rw [hj] at hjoin
      cases hjoin
    | ok found =>
      rw [hj] at hjoin
      exact ⟨found.2, congrArg Except.ok (Prod.ext (Option.some.inj hjoin) rfl)⟩
  · intro n run hstart hrun
    have hle := hsteps n run hstart hrun
    rwa [hsize] at hle

end Decompiler
