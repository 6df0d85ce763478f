import Decompiler.Proofs.CyclesFound
import Decompiler.Proofs.JoinEnds
import Decompiler.Proofs.Progress
/-!
# Structuring a graph without cycles

A graph without cycles has no loops (`Graph.loopNest_of_acyclic`), and then a step of the
structuring does one of three things: it leads back to a node that stands somewhere, puts a node off
until all its predecessors have come, or places a node at the end of a branch that leads to it
(`place_outcome`). The other branches that lead to it get a goto. A jump that is placed parts into
two new branches, and the node where its ways meet may be foreseen behind it.
-/

namespace Decompiler

open List Structuring

/-! ## No loops -/

/-- No path leads from a node back to it. -/
def Graph.Acyclic (g : Graph) : Prop := ∀ a, ¬ Relation.TransGen g.Edge a a

/-- What is structured is a graph without cycles, for which no loops are recorded. -/
structure Structuring.Subject.Loopless (subj : Subject) : Prop where
  graph : subj.graph.WellFormed
  acyclic : subj.graph.Acyclic
  all : ∀ k, subj.nest.tables.all.get? k = none
  equivalents : ∀ k, subj.nest.equivalents.get? k = none
  spurious : subj.nest.spurious = []
  further : subj.furtherConditions = false

namespace Graph

variable {g : Graph}

/-- No edge leads to the entry, which leads everywhere. -/
theorem Acyclic.not_edge_entry (h : g.Acyclic) (hg : g.WellFormed) (a : Int) : ¬ g.Edge a g.entry :=
  fun hedge =>
  h g.entry (Relation.TransGen.tail' (hg.reachable a (mem_nodes_of_edge hg hedge)) hedge)

/-- Nodes that go round have a cycle among them. -/
theorem Acyclic.not_goesRound (h : g.Acyclic) {start : Int} {nodes : List Int} :
    ¬ g.GoesRound start nodes := by
  intro hround
  have : Nonempty { a // a ∈ nodes } := ⟨⟨start, hround.start_mem⟩⟩
  have hnext : ∀ a : { a // a ∈ nodes }, ∃ b : { a // a ∈ nodes }, g.Edge a b := by
    rintro ⟨a, ha⟩
    obtain ⟨b, hb, hedge⟩ := hround.next a ha
    exact ⟨⟨b, hb⟩, hedge⟩
  obtain ⟨⟨a, _⟩, hcycle⟩ :=
    Exploration.exists_transGen_self (r := fun b a : { a // a ∈ nodes } => g.Edge a b) hnext
  exact h a ((Relation.transGen_swap.mp hcycle).lift Subtype.val fun _ _ hab => hab)

/-- The loops of a graph without cycles are found, and there are none. -/
theorem loopNest_of_acyclic (hg : g.WellFormed) (h : g.Acyclic) (arch : Arch) :
    ∃ nest, g.loopNest = .ok nest ∧ Subject.Loopless ⟨arch, g, nest, false⟩ := by
  have hmeets := loops_meets hg
  cases ht : g.loops with
  | error e =>
    -- The search fails only if an edge leads to the entry.
    rw [ht] at hmeets
    obtain ⟨preds, hpreds⟩ := OrdMap.mem_keys.mp hmeets.2
    obtain ⟨a, rest, rfl⟩ := exists_cons_of_ne_nil (hg.preds _ _ hpreds)
    exact absurd ((mem_iff_edge hg hpreds).mp (.head _)) (h.not_edge_entry hg a)
  | ok t =>
    rw [ht] at hmeets
    obtain ⟨hsound, hkeys⟩ := hmeets
    have hall : ∀ k, t.all.get? k = none := by
      intro k
      cases hk : t.all.get? k with
      | none => rfl
      | some nodes => exact absurd (hsound.all_round k nodes hk) h.not_goesRound
    have hnone : t.all.keys = [] :=
      eq_nil_iff_forall_not_mem.mpr fun k => OrdMap.get?_eq_none.mp (hall k)
    have hown : t.own.keys = [] :=
      eq_nil_iff_forall_not_mem.mpr fun k hk => by
        rw [← hkeys, hnone] at hk
        cases hk
    have hentries : t.all.entries = [] := map_eq_nil_iff.mp hnone
    have hfinds := finds_of_loops ht
    obtain ⟨nest, hnest⟩ := (hfinds.assemble_iff hg).1.mpr (by
      rw [hentries]
      exact forall_mem_nil _)
    have hloopNest : g.loopNest = .ok nest := by
      rw [loopNest, ht]
      exact hnest
    obtain ⟨-, -, hspurious⟩ := hfinds.sound hg
    rw [hspurious] at hnest
    obtain ⟨closing, -, rfl⟩ := closing_of_assemble hnest
    refine ⟨_, hloopNest, hg, h, hall, fun k => ?_, rfl, rfl⟩
    -- Equivalents are found among the loops, each compared with those after it.
    show (LoopNest.equivalences t.own.entries ∅).get? k = none
    rw [map_eq_nil_iff.mp hown]
    rfl

end Graph

namespace Structuring

variable {subj : Subject} {s s' : Build} {t : Task} {b : Nat}

/-! ## What a step may do -/

/-- The predecessors that a node outside of loops waits for. -/
def waitsFor (g : Graph) (a : Int) : List Int := distinct (g.preds.getD a [])

theorem mem_waitsFor {g : Graph} (hg : g.WellFormed) {a p : Int} :
    p ∈ waitsFor g a ↔ g.Edge p a := by
  rw [waitsFor, Exploration.mem_distinct, Graph.mem_preds_iff hg]

theorem Subject.Loopless.awaited_eq (h : subj.Loopless) (a : Int) :
    (scopeOf subj []).awaited subj.graph subj.nest a = waitsFor subj.graph a := by
  have hloop : subj.nest.tables.all.get? ⟨subj.graph.entry, a⟩ = none := h.all _
  simp only [Scope.awaited, scopeOf, hloop, waitsFor]
  exact filter_eq_self.mpr fun _ _ => rfl

theorem Subject.Loopless.turnsAway_eq (h : subj.Loopless) (pending : OrdMap Int Pending)
    (t : Task) : turnsAway subj pending t = false := by
  simp [turnsAway, entersElsewhere, h.spurious, h.equivalents]

theorem Subject.Loopless.startsLoop_eq (h : subj.Loopless) (scope : Scope) (addr : Int) :
    startsLoop subj scope addr = false := by
  simp [startsLoop, OrdMap.contains, h.all]

/-- A task that leads outside of loops from a node to an address, at the end of a branch. -/
structure Leads (t : Task) (branch : Nat) (source addr : Int) : Prop where
  branch : t.branch = some branch
  loops : t.loops = []
  source : t.source = some source
  addr : t.addr = addr

/-- What waits when the node where the ways of a jump meet is foreseen. -/
def foreseen (g : Graph) (b : Nat) (joint : Option Int) (pending : OrdMap Int Pending) :
    OrdMap Int Pending :=
  match joint with
  | none => pending
  | some a =>
    if 1 < (g.preds.getD a []).length && !pending.contains a then
      pending.insert a ⟨[b], waitsFor g a, [g.entry]⟩
    else pending

/-- A node is put at the end of a branch: where its ways meet, the tasks for its successors, and the
draft. -/
inductive Adjoins (g : Graph) (a : Int) (b : Nat) (d : Draft) :
    Option Int → List Task → Draft → Prop where
  | stop {insns : List Insn} (node : g.nodes.get? a = some insns) (next : g.next a = []) :
    Adjoins g a b d none [] (d.add b (.block insns))
  | step {insns : List Insn} {v : Int} {t : Task} (node : g.nodes.get? a = some insns)
    (next : g.next a = [v])
    (leads : Leads t b a v) : Adjoins g a b d none [t] (d.add b (.block insns))
  | fork {jump : Insn} {x y expected : Int} {slot : Option Insn} {joint : Option Int} {level : Nat}
    {tx ty : Task} (jump_addr : jump.addr = a) (next : g.next a = [x, y])
    (meets : ∀ j, joint = some j → Relation.TransGen g.Edge a j) (leads : Leads tx d.size a x)
    (other : Leads ty (if joint.any (· ≠ y) then d.size + 1 else b) a y) :
    Adjoins g a b d joint [ty, tx]
      (((d.newBranch (some b) level (d.nodes b).length).2.newBranch (some b) level
        (d.nodes b).length).2.add b (.ifElse jump expected d.size (d.size + 1) slot))

/-- What becomes of a task at the end of the branch `b`. -/
inductive Outcome (subj : Subject) (t : Task) (b : Nat) (s s' : Build) : Prop where
  /-- It leads back to a node that is placed. -/
  | back (known : t.addr ∈ s.visited) (needed : Bool)
    (needs : needsGoto subj (scopeOf subj []) (s.draft.nodes b) t.addr = .ok needed)
    (draft : s'.draft = if needed then s.draft.add b (.goto t.addr) else s.draft)
    (tasks : s'.tasks = s.tasks) (visited : s'.visited = s.visited)
    (pending : s'.pending = s.pending)
  /-- Its node is put off. -/
  | delayed (new : t.addr ∉ s.visited) (several : 1 < (subj.graph.preds.getD t.addr []).length)
    (p : Pending) (delays : Delays subj (scopeOf subj []) t b s p) (draft : s'.draft = s.draft)
    (tasks : s'.tasks = s.tasks) (visited : s'.visited = s.visited)
    (pending : s'.pending = s.pending.insert t.addr p)
  /-- Its node is placed. -/
  | placed (new : t.addr ∉ s.visited) (best : Nat) (d d' : Draft) (waiting : OrdMap Int Pending)
    (joint : Option Int) (more : List Task)
    (assembles : Assembles subj (scopeOf subj []) t b s best d waiting)
    (adjoins : Adjoins subj.graph t.addr best (withoutGoto d best t.addr) joint more d')
    (draft : s'.draft = d') (tasks : s'.tasks = more ++ s.tasks)
    (visited : s'.visited = t.addr :: s.visited)
    (pending : s'.pending = foreseen subj.graph best joint waiting)

/-! ## A step does one of these -/

theorem Subject.Loopless.foresees_eq (h : subj.Loopless) (joint : Option Int)
    (pending : OrdMap Int Pending) :
    foresees subj (scopeOf subj []) b joint pending = foreseen subj.graph b joint pending := by
  cases joint with
  | none => rfl
  | some a =>
    rw [foresees, h.awaited_eq]
    rfl

/-- Outside of loops, and if no further conditions are written, a conditional jump parts in two. -/
theorem Forked.outcome (hsubj : subj.Loopless) {f : Fork} (hloops : f.task.loops = [])
    (hnext : subj.graph.next f.jump.addr = [f.next, f.target])
    (hs : Forked subj (scopeOf subj []) f s (.ok () s')) :
    ∃ joint more, Adjoins subj.graph f.jump.addr f.branch s.draft joint more s'.draft ∧
      s'.tasks = more ++ s.tasks ∧
      s'.visited = s.visited ∧ s'.pending = foreseen subj.graph f.branch joint s.pending := by
  cases hs with
  | leaves _ hout => exact absurd hout Bool.false_ne_true
  | narrows _ hfurther => exact absurd (hsubj.further.symm.trans hfurther) Bool.false_ne_true
  | @parted found joint memo _ hjoin hmeets =>
    have hreached : ∀ j, joint = some j → Relation.TransGen subj.graph.Edge f.jump.addr j := by
      rintro j rfl
      obtain ⟨rfl, -⟩ := Option.filter_eq_some_iff.mp hmeets.symm
      exact Graph.joinPoint_reached hsubj.graph hjoin
    refine ⟨joint, [_, _], ?_, rfl, rfl, hsubj.foresees_eq joint _⟩
    exact .fork rfl hnext hreached ⟨rfl, hloops, rfl, rfl⟩ ⟨rfl, hloops, rfl, rfl⟩

theorem placeNode_outcome (hsubj : subj.Loopless) (hloops : t.loops = []) {level : Nat}
    {insns : List Insn} (hnode : subj.graph.nodes.get? t.addr = some insns)
    (hs : placeNode subj (scopeOf subj []) b level t insns s = .ok () s') :
    ∃ joint more, Adjoins subj.graph t.addr b s.draft joint more s'.draft ∧
      s'.tasks = more ++ s.tasks ∧
      s'.visited = t.addr :: s.visited ∧ s'.pending = foreseen subj.graph b joint s.pending := by
  have hput := placeNode_put hsubj.graph (scopeOf subj []) b level s hnode
  rw [hs] at hput
  cases hput with
  | stop hsucc =>
    have hnext : subj.graph.next t.addr = [] := by simp [Graph.next, OrdMap.getD, hsucc]
    exact ⟨none, [], .stop hnode hnext, rfl, rfl, rfl⟩
  | step hsucc =>
    refine ⟨none, [_], ?_, rfl, rfl, rfl⟩
    exact .step hnode (OrdMap.getD_of_get? hsucc) ⟨rfl, hloops, rfl, rfl⟩
  | fork hjump hsucc hforked =>
    rw [← hjump] at hsucc
    exact hjump ▸ hforked.outcome hsubj hloops (OrdMap.getD_of_get? hsucc)

/-- A step does one of three things with a task that leads to the end of a branch. -/
theorem place_outcome (hsubj : subj.Loopless) (hb : t.branch = some b) (hloops : t.loops = [])
    (hs : place subj t s = .ok () s') : Outcome subj t b s s' := by
  obtain ⟨haway, -⟩ | ⟨insns, b', loops, hnode, hleave, hs⟩ := place_eq_ok hs
  · rw [hsubj.turnsAway_eq] at haway
    cases haway
  · rw [hloops, hb] at hleave
    cases hleave
    obtain ⟨hknown, hs⟩ | ⟨hnew, r, s₁, hgather, hs⟩ := hs
    · obtain ⟨needed, hneeds, rfl⟩ := referBack_eq_ok hs
      exact .back hknown needed hneeds rfl rfl rfl rfl
    · obtain ⟨rfl, hseveral, p, hdelays, rfl⟩ | ⟨best, d, waiting, rfl, hassembles, rfl⟩ :=
        gather_awaits hgather
      · obtain ⟨-, rfl⟩ | ⟨best, _, hnone, -⟩ := hs
        · exact .delayed hnew hseveral p hdelays rfl rfl rfl rfl
        · cases hnone
      · obtain ⟨hnone, -⟩ | ⟨_, level, heq, hs⟩ := hs
        · cases hnone
        -- No loop starts at the node, so it is put straight at the end of the branch.
        obtain rfl := Option.some.inj heq
        rw [settle_eq, hsubj.startsLoop_eq, if_neg Bool.false_ne_true] at hs
        obtain ⟨joint, more, hadjoins, htasks, hvisited, hpending⟩ :=
          placeNode_outcome (t := { t with loops := [] }) hsubj rfl hnode hs
        exact .placed hnew best d _ waiting joint more hassembles hadjoins rfl htasks hvisited
          hpending

end Structuring

end Decompiler
