import Decompiler.Proofs.Progress
/-!
# A conditional jump in a loop stays in it one way at least

When a node is placed in a loop, the loop in force has the node: loops that do not have it were left
before, and a loop that it starts has its start. Every node of a loop leads on to a node of the
loop. So of the two ways out of a conditional jump that is placed in a loop, one stays in the loop
in force, and the placing of a jump both ways of which leave it is never come to
(`Graph.fork_stays_in_loop`).
-/

namespace Decompiler

open List OrdMap

namespace Structuring

variable {subj : Subject} {s s' : Build} {t : Task} {loops : List LoopFrame} {insns : List Insn}
  {next target : Int} {rest : List Task}

/-! ## Placing a fork -/

/-- A task places its node, inside of some open loops: it is followed, its node is new, and all that
the node waits for has come. -/
structure Places (subj : Subject) (s : Build) (t : Task) (loops : List LoopFrame) : Prop where
  followed : turnsAway subj s.pending t = false
  fresh : t.addr ∉ s.visited
  gathered : ∃ b best s₁, leaveLoops subj t.addr t.loops t.branch = .ok (some b, loops) ∧
    gather subj (scopeOf subj loops) b t.source t.addr s = .ok (some best) s₁

/-- A node with two successors is settled as a fork, in the scope of the loop that it starts if it
starts one. -/
theorem settle_eq_placeFork (hg : subj.graph.WellFormed) (b level : Nat)
    (hnode : subj.graph.nodes.get? t.addr = some insns)
    (hsucc : subj.graph.succs.get? t.addr = some [next, target]) :
    ∃ f s₁, settle subj (scopeOf subj loops) b level t loops insns s =
      placeFork subj (scopeAt subj loops t.addr) f s₁ ∧
      f.jump.addr = t.addr ∧ f.next = next ∧ f.target = target := by
  obtain ⟨i, rest, rfl, hi⟩ := hg.heads _ _ hnode
  rw [settle_eq]
  unfold scopeAt placeNode
  split
  · rw [hsucc]
    exact ⟨_, _, rfl, hi, rfl, rfl⟩
  · rw [hsucc]
    exact ⟨_, _, rfl, hi, rfl, rfl⟩

variable {b : Nat} {e : Fault} {k : LoopId}

theorem place_eq_arrive (haway : turnsAway subj s.pending t = false)
    (hnode : subj.graph.nodes.get? t.addr = some insns)
    (hleave : leaveLoops subj t.addr t.loops t.branch = .ok (some b, loops)) :
    place subj t s = arrive subj t b loops insns s := by
  simp only [place, get_bind_apply, haway, Bool.false_eq_true, if_false, hnode, hleave]

theorem arrive_eq_settle (hfresh : t.addr ∉ s.visited) {best : Nat} {s₁ : Build}
    (hgather : gather subj (scopeOf subj loops) b t.source t.addr s = .ok (some best) s₁) :
    arrive subj t b loops insns s = settle subj (scopeOf subj loops) best (s.draft.level b) t loops
      insns s₁ := by
  simp only [arrive, get_bind_apply, hfresh, if_false]
  simp only [bind, EStateM.bind, hgather]

/-- A task that places a node with two successors places a fork. -/
theorem Places.place_eq_placeFork (hg : subj.graph.WellFormed) (h : Places subj s t loops)
    (hnode : subj.graph.nodes.get? t.addr = some insns)
    (hsucc : subj.graph.succs.get? t.addr = some [next, target]) :
    ∃ f s₁, place subj t s = placeFork subj (scopeAt subj loops t.addr) f s₁ ∧
      f.jump.addr = t.addr ∧ f.next = next ∧ f.target = target := by
  obtain ⟨b, best, s₁, hleave, hgather⟩ := h.gathered
  rw [place_eq_arrive h.followed hnode hleave, arrive_eq_settle h.fresh hgather]
  exact settle_eq_placeFork hg best _ hnode hsucc

/-! ## The loop in force -/

/-- The loop in force where a node is placed is recorded, and has the node. -/
theorem mem_of_scopeAt (hsubj : subj.Sound) {addr : Int}
    (hframes : ∀ f ∈ loops, f.id ∈ subj.nest.tables.all.keys)
    (htop : ∀ f outer, loops = f :: outer → addr ∈ subj.nest.tables.all.getD f.id [])
    (hk : (scopeAt subj loops addr).loop = some k) :
    ∃ nodes, subj.nest.tables.all.get? k = some nodes ∧
      (scopeAt subj loops addr).nodes = some nodes ∧ addr ∈ nodes :=
  by
  unfold scopeAt at hk ⊢
  split at hk
  · rename_i hstarts
    rw [if_pos hstarts]
    obtain rfl := Option.some.inj hk
    obtain ⟨nodes, hnodes⟩ := mem_keys.mp (contains_iff.mp (Bool.and_eq_true_iff.mp hstarts).1)
    exact ⟨nodes, hnodes, congrArg some (getD_of_get? hnodes),
      (hsubj.tables.all_round _ nodes hnodes).start_mem⟩
  · rename_i hstarts
    rw [if_neg hstarts]
    cases loops with
    | nil => cases hk
    | cons frame outer =>
      obtain rfl := Option.some.inj hk
      obtain ⟨nodes, hnodes⟩ := mem_keys.mp (hframes frame (.head _))
      have hgetD : subj.nest.tables.all.getD frame.id [] = nodes := getD_of_get? hnodes
      exact ⟨nodes, hnodes, congrArg some hgetD, hgetD ▸ htop frame outer rfl⟩

/-- One way out of a fork stays in the loop in force. -/
theorem stays_of_mem (hsubj : subj.Sound) {nodes : List Int}
    (hnodes : subj.nest.tables.all.get? k = some nodes) {addr : Int} (hmem : addr ∈ nodes)
    (hsucc : subj.graph.succs.get? addr = some [next, target]) : next ∈ nodes ∨ target ∈ nodes := by
  obtain ⟨y, hy, hedge⟩ := (hsubj.tables.all_round k nodes hnodes).next addr hmem
  rw [Graph.Edge, Graph.next, getD_of_get? hsucc] at hedge
  rcases mem_pair.mp hedge with rfl | rfl
  · exact .inl hy
  · exact .inr hy

/-! ## Runs -/

variable {s₀ : Build}

/-- The loops left open for a task are recorded, and the innermost one has its node. -/
theorem OnWay.leaves (h : OnWay subj s₀ s) (htasks : s.tasks = t :: rest) :
    ∃ b loops, leaveLoops subj t.addr t.loops t.branch = .ok (some b, loops) ∧
      (∀ f ∈ loops, f.id ∈ subj.nest.tables.all.keys) ∧
      ∀ f outer, loops = f :: outer → t.addr ∈ subj.nest.tables.all.getD f.id [] := by
  have hrooted := h.ready.tasks t (htasks ▸ .head _)
  exact leaveLoops_eq_ok hrooted.frames hrooted.branch

/-- Where a task places a fork, one way stays in the loop in force. -/
theorem OnWay.stays (hsubj : subj.Sound) (h : OnWay subj s₀ s) (htasks : s.tasks = t :: rest)
    (hplaces : Places subj { s with tasks := rest } t loops)
    (hsucc : subj.graph.succs.get? t.addr = some [next, target])
    (hk : (scopeAt subj loops t.addr).loop = some k) :
    ∃ nodes, subj.nest.tables.all.get? k = some nodes ∧
      (scopeAt subj loops t.addr).nodes = some nodes ∧ (next ∈ nodes ∨ target ∈ nodes) := by
  obtain ⟨b, loops', hleave, hframes, htop⟩ := h.leaves htasks
  obtain ⟨b', best, s₁, hleave', -⟩ := hplaces.gathered
  rw [hleave] at hleave'
  cases hleave'
  obtain ⟨nodes, hnodes, hscope, hmem⟩ := mem_of_scopeAt hsubj hframes htop hk
  exact ⟨nodes, hnodes, hscope, stays_of_mem hsubj hnodes hmem hsucc⟩

theorem OnWay.place_fault (hsubj : subj.Sound) (h : OnWay subj s₀ s) (htasks : s.tasks = t :: rest)
    (hfail : place subj t { s with tasks := rest } = .error e s') : ∃ a, e = .notAwaited a := by
  have hdoes := h.place_does hsubj htasks
  rw [hfail] at hdoes
  exact hdoes.1

/-- No task is refused for a conditional jump both ways of which leave a loop. -/
theorem OnWay.place_ne_stray (hsubj : subj.Sound) (h : OnWay subj s₀ s)
    (htasks : s.tasks = t :: rest) (a : Int) :
    place subj t { s with tasks := rest } ≠ .error (.strayConditional a) s' := by
  intro hstray
  obtain ⟨b, hb⟩ := h.place_fault hsubj htasks hstray
  cases hb

/-- A structuring that fails does so for lack of steps or at a task that it comes to. -/
theorem exists_place_of_placeAll {fuel : Nat} (h : placeAll subj fuel s = .error e s') :
    e = .stepBound ∨ ∃ s₁ t rest, Run subj s s₁ ∧ s₁.tasks = t :: rest ∧
      place subj t { s₁ with tasks := rest } = .error e s' := by
  have hends := placeAll_finishes subj fuel s
  rw [h] at hends
  cases hends with
  | bound => exact .inl rfl
  | failed hrun htasks hplace => exact .inr ⟨_, _, _, hrun, htasks, hplace⟩

end Structuring

open Structuring

/-! ## States that can be computed -/

/-- The state of a structuring after a number of steps, if it gets that far. -/
def OneByte.Nested.after? (r : OneByte.Nested) (further : Bool) : Nat → Option Build
  | 0 => some (Build.start 0 ∅ ∅)
  | n + 1 =>
    match r.after? further n with
    | none => none
    | some s =>
      match s.tasks with
      | [] => none
      | t :: rest =>
        match place ⟨.x86, r.graph, r.nest, further⟩ t { s with tasks := rest } with
        | .ok _ s' => some s'
        | .error _ _ => none

theorem OneByte.Nested.run_of_after? {r : OneByte.Nested} {further : Bool} :
    ∀ {n : Nat} {s : Build},
    r.after? further n = some s → Run ⟨.x86, r.graph, r.nest, further⟩ (Build.start 0 ∅ ∅) s := by
  intro n
  induction n with
  | zero =>
    intro s h
    rw [← Option.some.inj h]
    exact .refl
  | succ n ih =>
    intro s h
    unfold OneByte.Nested.after? at h
    split at h
    · cases h
    · rename_i s₁ hs₁
      split at h
      · cases h
      · rename_i t rest htasks
        split at h
        · rename_i s' hplace
          rw [← Option.some.inj h]
          exact (ih hs₁).tail ⟨t, rest, htasks, hplace⟩
        · cases h

/-- The loops inside of which the next task of a state places its node, if it does. -/
def Structuring.openAt? (subj : Subject) (s : Build) (t : Task) : Option (List LoopFrame) :=
  if turnsAway subj s.pending t || t.addr ∈ s.visited then none
  else
    match leaveLoops subj t.addr t.loops t.branch with
    | .ok (some b, loops) =>
      match gather subj (scopeOf subj loops) b t.source t.addr s with
      | .ok (some _) _ => some loops
      | _ => none
    | _ => none

theorem Structuring.places_of_openAt? {subj : Subject} {s : Build} {t : Task}
    {loops : List LoopFrame} (h : openAt? subj s t = some loops) : Places subj s t loops := by
  unfold openAt? at h
  split at h
  · cases h
  · rename_i hgoes
    simp only [Bool.or_eq_true, decide_eq_true_eq, not_or, Bool.not_eq_true] at hgoes
    split at h
    · rename_i b loops' hleave
      split at h
      · rename_i best s₁ hgather
        obtain rfl := Option.some.inj h
        exact ⟨hgoes.1, hgoes.2, b, best, s₁, hleave, hgather⟩
      · cases h
    · cases h

/-! ## Functions -/

/-- In the structuring of a function with any of its nests, wherever a node with two successors is
placed inside of a loop, the node becomes a fork whose ways are the two successors, and one of them
is among the nodes of the loop in force. So no structuring fails at a conditional jump both ways of
which leave a loop. -/
theorem Graph.fork_stays_in_loop {p p' : Program} (hp : p.Keyed) {entry : Int} {g₀ g : Graph}
    (hfound : Graph.discover entry p = .ok (some g₀) p') (hblocks : g₀.blocks p.arch = .ok g)
    {nest : LoopNest} (hnest : g.HasNest nest) (further : Bool) (labels : OrdMap Int String) :
    (∀ s t rest loops next target, Run ⟨p.arch, g, nest, further⟩ (Build.start entry labels ∅) s →
      s.tasks = t :: rest → Places ⟨p.arch, g, nest, further⟩ { s with tasks := rest } t loops →
      g.succs.get? t.addr = some [next, target] →
      (∃ f s₁, place ⟨p.arch, g, nest, further⟩ t { s with tasks := rest } =
          placeFork ⟨p.arch, g, nest, further⟩ (scopeAt ⟨p.arch, g, nest, further⟩ loops t.addr) f
        s₁ ∧ f.jump.addr = t.addr ∧ f.next = next ∧ f.target = target) ∧
      ∀ k, (scopeAt ⟨p.arch, g, nest, further⟩ loops t.addr).loop = some k →
        ∃ nodes, nest.tables.all.get? k = some nodes ∧
          (scopeAt ⟨p.arch, g, nest, further⟩ loops t.addr).nodes = some nodes ∧
            (next ∈ nodes ∨ target ∈ nodes)) ∧
    ∀ e s, build ⟨p.arch, g, nest, further⟩ (Build.start entry labels ∅) = .error e s →
      ∀ a, e ≠ .strayConditional a := by
  obtain ⟨hsubj, rfl⟩ := hnest.subject hp hfound hblocks further
  have h₀ := OnWay.start hsubj labels ∅
  constructor
  · intro s t rest loops next target hrun htasks hplaces hsucc
    have h := h₀.of_run hsubj hrun
    obtain ⟨insns, hnode⟩ := mem_keys.mp (h.accounts.tasks t (htasks ▸ .head _))
    exact ⟨hplaces.place_eq_placeFork hsubj.graph hnode hsucc, fun k hk =>
      h.stays hsubj htasks hplaces hsucc hk⟩
  · rintro e s hfail a rfl
    rcases exists_place_of_placeAll hfail with hbound | ⟨s₁, t, rest, hrun, htasks, hplace⟩
    · cases hbound
    · exact (h₀.of_run hsubj hrun).place_ne_stray hsubj htasks a hplace

/-- The jump back in a loop inside another: one of its ways leaves the inner loop, the other stays
in it. -/
theorem Graph.fork_stays_in_loop_nested :
    ∃ (p' : Program) (g₀ g : Graph) (nest : LoopNest) (s : Build) (t : Task) (rest : List Task)
      (loops : List LoopFrame),
      Graph.discover 0 (OneByte.program [.run, .run, .run, .fork 2, .fork 1, .ret]) =
      .ok (some g₀) p' ∧ g₀.blocks .x86 = .ok g ∧ g.loopNest = .ok nest ∧
      Run ⟨.x86, g, nest, true⟩ (Build.start 0 ∅ ∅) s ∧ s.tasks = t :: rest ∧
      Places ⟨.x86, g, nest, true⟩ { s with tasks := rest } t loops ∧
        g.succs.get? t.addr = some [4, 2] ∧
      (scopeAt ⟨.x86, g, nest, true⟩ loops t.addr).loop = some ⟨1, 2⟩ ∧
      ∃ nodes, nest.tables.all.get? ⟨1, 2⟩ = some nodes ∧ 4 ∉ nodes ∧ 2 ∈ nodes := by
  have hval : ((OneByte.nested? [.run, .run, .run, .fork 2, .fork 1, .ret]).bind fun r =>
      (r.after? true 3).bind fun s => s.tasks.head?.bind fun t =>
        (openAt? ⟨.x86, r.graph, r.nest, true⟩ { s with tasks := s.tasks.tail } t).map fun loops =>
          ((scopeAt ⟨.x86, r.graph, r.nest, true⟩ loops t.addr).loop, r.graph.succs.get? t.addr,
            r.nest.tables.all.get? ⟨1, 2⟩)) = some (some ⟨1, 2⟩, some [4, 2], some [3, 2]) := by
    decide +kernel
  simp only [Option.bind_eq_some_iff, Option.map_eq_some_iff, Prod.mk.injEq] at hval
  obtain ⟨r, hr, s, hs, t, ht, loops, hopen, hloop, hsucc, hinner⟩ := hval
  obtain ⟨p', g₀, hfound, hblocks, -, hnest⟩ := OneByte.exists_of_nested? hr
  have hrun := OneByte.Nested.run_of_after? hs
  have htasks : s.tasks = t :: s.tasks.tail := (cons_head?_tail ht).symm
  have hplaces := places_of_openAt? hopen
  obtain ⟨hstays, -⟩ := Graph.fork_stays_in_loop (OneByte.program_keyed _) hfound hblocks
    (Graph.hasNest_of_loopNest hnest) true ∅
  obtain ⟨-, hforce⟩ := hstays s t _ loops 4 2 hrun htasks hplaces hsucc
  obtain ⟨nodes, hnodes, -, hin⟩ := hforce ⟨1, 2⟩ hloop
  have hout : 4 ∉ nodes := by
    rw [hinner] at hnodes
    rw [← Option.some.inj hnodes]
    decide
  exact ⟨p', g₀, r.graph, r.nest, s, t, _, loops, hfound, hblocks, hnest, hrun, htasks, hplaces,
    hsucc, hloop, nodes, hnodes, hout, hin.resolve_left hout⟩

end Decompiler
