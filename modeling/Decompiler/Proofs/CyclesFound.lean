import Decompiler.Proofs.LoopNest
import Decompiler.Proofs.SearchEnds
/-!
# Every cycle away from the entry meets the start of a loop

The search enters a node when all its predecessors have been seen, and where it cannot go on it
takes some of them for loop starts, whose predecessors inside the loop are not waited for. Two facts
about every run of the search, in whatever order it goes through its sets, show that no cycle is
missed.

No node of a cycle is entered before one of its nodes is taken for a loop start: until then each
node of the cycle waits for the one before it. And every node is entered in the end: of the nodes
that still wait, follow the ones waited for backwards to where the search has come in front of them,
and so on, until a node comes round that waits for one on a path back to itself; but then it is a
loop start and does not wait for that one.

So every cycle that does not pass through the entry has a loop start on it
(`Graph.loopNest_meets_cycles`).
-/

namespace Decompiler

open List OrdMap

variable {p a v : Int} {l : List Int} {moved : Bool}

/-- An edge between two nodes of a set. -/
def Graph.Within (g : Graph) (s : Set Int) (a b : Int) : Prop := g.Edge a b ∧ a ∈ s ∧ b ∈ s

/-- Every node of the set lies on a cycle in it. -/
def Graph.Cyclic (g : Graph) (s : Set Int) : Prop := ∀ c ∈ s, Relation.TransGen (g.Within s) c c

/-- The last node of a way round in a set lies on a path back, whatever is barred outside of the
set. -/
theorem Graph.mem_paths_of_within {g : Graph} {s : Set Int} {c : Int}
    (h : Relation.ReflTransGen (g.Within s) c p) (hback : g.Within s p c) {barred : List Int}
    (hbarred : ∀ a ∈ barred, a ∉ s) : p ∈ g.succs.paths c c barred := by
  have hopen : ∀ a b, g.Within s a b → g.succs.Open barred a b :=
    fun a b hab => ⟨hab.1, fun hin => hbarred a hin hab.2.1⟩
  exact Edges.mem_paths_of_reach (Relation.ReflTransGen.mono hopen _ _ h) (hopen p c hback)

namespace Exploration

variable {g : Graph}

/-! ## The invariant -/

/-- What a level knows: it has visited nodes that were entered, and the nodes that are done, the
loops around and those that are ready are admitted. -/
structure Frame.Knows (entered admitted : Set Int) (f : Frame) : Prop where
  visited : ∀ a ∈ f.visited, a ∈ entered
  done : ∀ a ∈ f.done, a ∈ admitted
  around : ∀ a ∈ f.around, a ∈ admitted
  ready : ∀ l, f.stage = .exploring l → ∀ a ∈ l, a ∈ admitted

/-- The outermost level has no loop around it and looks at everything. -/
def Grounded : List Frame → Prop
  | [] => True
  | [f] => f.around = [] ∧ f.region = none
  | _ :: f :: fs => Grounded (f :: fs)

/-- How far the search has come: the nodes entered so far, on any level, and the nodes admitted,
which are entered or will be. Every edge from a node that was entered has been followed or will be.
A loop start that is not admitted waits, and not for a node of its loop. As long as no loop start is
in `cycle`, no node of it is admitted, and each waits for those before it. -/
structure Spreads (g : Graph) (cycle entered admitted : Set Int) (f : Frame) (fs : List Frame)
    (waiting : Waiting) (t : LoopTables) : Prop where
  entry : g.entry ∈ entered
  sub : entered ⊆ admitted
  due : ∀ a ∈ admitted, a ∈ entered ∨ (none, a) ∈ f.stack ∨
    ∃ o ∈ f :: fs, ∃ l, o.stage = .exploring l ∧ a ∈ l
  knows : ∀ o ∈ f :: fs, o.Knows entered admitted
  outer : ∀ o ∈ fs, ∃ l, o.stage = .exploring l
  grounded : Grounded (f :: fs)
  stack : ∀ e ∈ f.stack, (∃ u ∈ entered, e.1 = some u ∧ g.Edge u e.2) ∨ e.1 = none ∧ e.2 ∈ f.done
  edges : ∀ u ∈ entered, ∀ v, g.Edge u v →
    v ∈ admitted ∨ (∃ missing, waiting.get? v = some missing ∧ u ∉ missing) ∨ (some u, v) ∈ f.stack
  missing : ∀ v missing, waiting.get? v = some missing → ∀ p ∈ missing, g.Edge p v
  keys_nodup : waiting.keys.Nodup
  loops : ∀ k nodes, t.own.get? k = some nodes →
    (∃ around : List Int, (∀ a ∈ around, a ∈ admitted) ∧
      nodes = g.succs.paths k.start k.start around) ∧
      (k.start ∈ admitted ∨ ∃ missing, waiting.get? k.start = some missing ∧
        ∀ p ∈ missing, p ∉ nodes)
  tried : f.stage = .settling ∨ (∃ l, f.stage = .recording l) →
    ∀ v ∈ waiting.keys, f.region.holds v = true →
    (⟨f.entry, v⟩ : LoopId) ∈ t.own.keys ∨ g.succs.paths v v f.around = []
  waits : (∃ l, f.stage = .recording l) → ∀ v missing, waiting.get? v = some missing →
    f.region.holds v = true → missing ≠ []
  away : (∀ k ∈ t.own.keys, k.start ∉ cycle) → ∀ c ∈ cycle, c ∉ admitted
  held : (∀ k ∈ t.own.keys, k.start ∉ cycle) → ∀ c ∈ cycle, ∀ missing, waiting.get? c =
    some missing → ∀ p ∈ cycle, g.Edge p c → p ∈ missing

variable {cycle entered admitted entered' admitted' : Set Int} {f f' : Frame} {fs : List Frame}
  {waiting waiting' : Waiting} {t t' : LoopTables}

theorem Frame.Knows.mono (h : f.Knows entered admitted) (hentered : entered ⊆ entered')
    (hadmitted : admitted ⊆ admitted') : f.Knows entered' admitted' where
  visited a ha := hentered (h.visited a ha)
  done a ha := hadmitted (h.done a ha)
  around a ha := hadmitted (h.around a ha)
  ready l hl a ha := hadmitted (h.ready l hl a ha)

theorem Grounded.top (h : Grounded (f :: fs)) (haround : f'.around = f.around)
    (hregion : f'.region = f.region) : Grounded (f' :: fs) := by
  cases fs with
  | nil => exact ⟨haround.trans h.1, hregion.trans h.2⟩
  | cons o fs => exact h

theorem idle_of_walking (hstage : f.stage = .walking moved) :
    ∀ l, f.stage = .exploring l → l = [] := by
  intro l hl
  rw [hstage] at hl
  cases hl

theorem Spreads.start (g : Graph) (hentry : g.entry ∉ cycle) :
    Spreads g cycle {g.entry} {g.entry} (Frame.begin g g.entry [] none [] [])
      [] ∅ LoopTables.empty where
  entry := rfl
  sub := Set.Subset.refl _
  due a ha := .inl ha
  knows o ho := by
    rw [mem_singleton.mp ho]
    exact ⟨fun a ha => mem_singleton.mp ha, forall_mem_nil _, forall_mem_nil _,
      fun l hl => by cases hl⟩
  outer o ho := by cases ho
  grounded := ⟨rfl, rfl⟩
  stack e he := by
    obtain ⟨n, hn, rfl⟩ := mem_map.mp (mem_reverse.mp he)
    exact .inl ⟨g.entry, rfl, rfl, hn⟩
  edges u hu v huv := by
    obtain rfl : u = g.entry := hu
    exact .inr (.inr (mem_reverse.mpr (mem_map_of_mem huv)))
  missing v missing h := by cases h
  keys_nodup := nodup_nil
  loops k nodes h := by cases h
  tried h := by rcases h with h | ⟨l, h⟩ <;> cases h
  waits h := by obtain ⟨l, h⟩ := h; cases h
  away _ c hc hin := hentry ((show c = g.entry from hin) ▸ hc)
  held _ c _ missing h := by cases h

/-- A node that has waited is admitted by now, or it waits for no more than before. -/
def Eases (admitted : Set Int) (waiting waiting' : Waiting) : Prop :=
  ∀ v missing, waiting.get? v = some missing → v ∈ admitted ∨ ∃ rest, waiting'.get? v = some rest ∧
    rest ⊆ missing

section

variable (h : Spreads g cycle entered admitted f fs waiting t)
include h

/-- The levels know no less when the innermost one is replaced. -/
theorem Spreads.knows_top (hentered : entered ⊆ entered') (hadmitted : admitted ⊆ admitted')
    (hf' : f'.Knows entered' admitted') : ∀ o ∈ f' :: fs, o.Knows entered' admitted' := by
  refine forall_mem_cons.mpr ⟨hf', fun o ho => ?_⟩
  exact (h.knows o (.tail _ ho)).mono hentered hadmitted

/-- Where the innermost level has no node ready, one that is admitted is entered or on the stack or
ready in a level around. -/
theorem Spreads.due_top (hidle : ∀ l, f.stage = .exploring l → l = []) (ha : a ∈ admitted) :
    a ∈ entered ∨ (none, a) ∈ f.stack ∨ ∃ o ∈ f' :: fs, ∃ l, o.stage = .exploring l ∧ a ∈ l := by
  refine (h.due a ha).imp_right (Or.imp_right ?_)
  rintro ⟨o, ho, l, hl, hal⟩
  rcases mem_cons.mp ho with rfl | ho
  · rw [hidle l hl] at hal
    cases hal
  · exact ⟨o, .tail _ ho, l, hl, hal⟩

theorem Spreads.edges_of_eases (hadmitted : admitted ⊆ admitted')
    (hless : Eases admitted' waiting waiting') {u : Int} (hu : u ∈ entered) (huv : g.Edge u v) :
    v ∈ admitted' ∨ (∃ missing, waiting'.get? v = some missing ∧ u ∉ missing) ∨
      (some u, v) ∈ f.stack := by
  rcases h.edges u hu v huv with hv | ⟨missing, hv, hnot⟩ | hin
  · exact .inl (hadmitted hv)
  · refine (hless v missing hv).imp_right fun hrest => .inl ?_
    obtain ⟨rest, hrest, hsub⟩ := hrest
    exact ⟨rest, hrest, fun hin => hnot (hsub hin)⟩
  · exact .inr (.inr hin)

theorem Spreads.loops_of_eases (hadmitted : admitted ⊆ admitted')
    (hless : Eases admitted' waiting waiting') {k : LoopId} {nodes : List Int}
    (hk : t.own.get? k = some nodes) :
    (∃ around : List Int, (∀ a ∈ around, a ∈ admitted') ∧
      nodes = g.succs.paths k.start k.start around) ∧
      (k.start ∈ admitted' ∨ ∃ missing, waiting'.get? k.start = some missing ∧
        ∀ p ∈ missing, p ∉ nodes) := by
  obtain ⟨⟨around, haround, hnodes⟩, hstart⟩ := h.loops k nodes hk
  refine ⟨⟨around, fun a ha => hadmitted (haround a ha), hnodes⟩, ?_⟩
  rcases hstart with hin | ⟨missing, hv, hout⟩
  · exact .inl (hadmitted hin)
  · refine (hless k.start missing hv).imp_right ?_
    rintro ⟨rest, hrest, hsub⟩
    exact ⟨rest, hrest, fun p hp => hout p (hsub hp)⟩

/-! ## Steps -/

variable {source : Option Int} {addr : Int} {rest : List (Option Int × Int)} {w : Walk}

/-- The source of an edge on the stack was entered, so it is in no cycle without a loop start. -/
theorem Spreads.source_ne (hfree : ∀ k ∈ t.own.keys, k.start ∉ cycle)
    (he : (source, addr) ∈ f.stack) (hp : p ∈ cycle) : some p ≠ source := by
  rintro rfl
  rcases h.stack _ he with ⟨u, hu, heq, -⟩ | ⟨heq, -⟩
  · obtain rfl := Option.some.inj heq
    exact h.away hfree p hp (h.sub hu)
  · cases heq

theorem Spreads.wait (hg : g.WellFormed) (hstage : f.stage = .walking moved)
    (hstack : f.stack = (source, addr) :: rest)
    (hwait : mustWait g f.region { f.walk waiting with stack := rest } addr = true)
    (harrive : arrive g { f.walk waiting with stack := rest } source addr = .ok w) :
    Spreads g cycle entered admitted (f.put w (.walking moved)) fs w.waiting t := by
  obtain ⟨missing, rfl, hmissing⟩ := arrive_spec harrive
  change ∀ p, p ∈ missing ↔ p ∈ waiting.getD addr (g.preds.getD addr []) ∧
    some p ≠ source at hmissing
  change Spreads g cycle entered admitted { f with stack := rest, stage := .walking moved } fs
    (waiting.insert addr missing) t
  have hhead : (source, addr) ∈ f.stack := hstack ▸ .head _
  have hdone : addr ∉ f.done := mustWait_eq_true hwait
  have hget : ∀ v, (waiting.insert addr missing).get? v = if addr = v then some missing
      else waiting.get? v :=
    fun v => OrdMap.get?_insert _ _ _ _
  have hless : Eases admitted waiting (waiting.insert addr missing) := by
    intro v old hold
    rw [hget]
    split
    · rename_i heq
      subst heq
      refine .inr ⟨missing, rfl, fun p hp => ?_⟩
      have hp := ((hmissing p).mp hp).1
      rwa [getD_of_get? hold] at hp
    · exact .inr ⟨old, hold, List.Subset.refl _⟩
  refine { h with
    due := fun a ha => ?_
    knows := h.knows_top (Set.Subset.refl _) (Set.Subset.refl _)
      { h.knows f (.head _) with ready := fun l hl => by cases hl }
    grounded := h.grounded.top rfl rfl
    stack := fun e he => h.stack e (hstack ▸ .tail _ he)
    edges := fun u hu v huv => ?_
    missing := fun v old hold p hp => ?_
    keys_nodup := nodup_keys_insert h.keys_nodup _ _
    loops := fun k nodes hk => h.loops_of_eases (Set.Subset.refl _) hless hk
    tried := fun hst => by rcases hst with hst | ⟨l, hst⟩ <;> cases hst
    waits := fun hst => by obtain ⟨l, hst⟩ := hst; cases hst
    held := fun hfree c hc old hold p hp hpc => ?_ }
  · refine (h.due_top (idle_of_walking hstage) ha).imp_right (Or.imp_left fun hin => ?_)
    rcases mem_cons.mp (hstack ▸ hin) with heq | hin
    · -- An edge from nowhere leads to a node that is done, and this one is not.
      obtain ⟨rfl, rfl⟩ := Prod.mk.inj heq
      rcases h.stack _ hhead with ⟨u, -, heq, -⟩ | ⟨-, hin⟩
      · cases heq
      · exact absurd hin hdone
    · exact hin
  · rcases h.edges_of_eases (Set.Subset.refl _) hless hu huv with hv | hv | hin
    · exact .inl hv
    · exact .inr (.inl hv)
    · rcases mem_cons.mp (hstack ▸ hin) with heq | hin
      · obtain ⟨rfl, rfl⟩ := Prod.mk.inj heq
        refine .inr (.inl ⟨missing, (hget v).trans (if_pos rfl), fun hin => ?_⟩)
        exact ((hmissing u).mp hin).2 rfl
      · exact .inr (.inr hin)
  · rw [hget] at hold
    split at hold
    · rename_i heq
      subst heq
      obtain rfl := Option.some.inj hold
      have hp := ((hmissing p).mp hp).1
      cases hw : waiting.get? addr with
      | some old =>
        rw [getD_of_get? hw] at hp
        exact h.missing addr old hw p hp
      | none =>
        rw [getD_of_not_mem (OrdMap.get?_eq_none.mp hw)] at hp
        exact (Graph.mem_preds_iff hg).mp hp
    · exact h.missing v old hold p hp
  · rw [hget] at hold
    split at hold
    · rename_i heq
      subst heq
      obtain rfl := Option.some.inj hold
      refine (hmissing p).mpr ⟨?_, h.source_ne hfree hhead hp⟩
      cases hw : waiting.get? addr with
      | some old =>
        rw [getD_of_get? hw]
        exact h.held hfree addr hc old hw p hp hpc
      | none =>
        rw [getD_of_not_mem (OrdMap.get?_eq_none.mp hw)]
        exact (Graph.mem_preds_iff hg).mpr hpc
    · exact h.held hfree c hc old hold p hp hpc

/-- A node that is entered has no further predecessor, or its waiting is over: in a cycle without a
loop start there is no such node. -/
theorem Spreads.not_mem_cycle (hg : g.WellFormed) (hcyclic : g.Cyclic cycle)
    (hfree : ∀ k ∈ t.own.keys, k.start ∉ cycle) (hstack : (source, addr) ∈ f.stack)
    (hwait : mustWait g f.region { f.walk waiting with stack := rest } addr = false) :
    addr ∉ cycle := by
  intro haddr
  have hout : addr ∉ f.done := fun hin =>
    h.away hfree addr haddr ((h.knows f (.head _)).done addr hin)
  rcases h.stack _ hstack with ⟨u, hu, -, hedge⟩ | ⟨-, hin⟩
  · obtain ⟨p, -, hp⟩ := Relation.TransGen.tail'_iff.mp (hcyclic addr haddr)
    obtain ⟨preds, hpreds⟩ := mem_keys.mp (Graph.mem_preds_keys hg hedge)
    obtain ⟨hlen, -⟩ := mustWait_eq_false hpreds hout hwait
    have hmem : ∀ q, g.Edge q addr → q ∈ preds := fun _ => (Graph.mem_iff_edge hg hpreds).mpr
    -- Its one predecessor would be in the cycle, and it was entered.
    obtain ⟨q, rfl⟩ : ∃ q, preds = [q] := by
      have hpos := length_pos_of_mem (hmem u hedge)
      exact length_eq_one_iff.mp (by omega)
    obtain rfl := mem_singleton.mp (hmem u hedge)
    obtain rfl := mem_singleton.mp (hmem p hp.1)
    exact h.away hfree _ hp.2.1 (h.sub hu)
  · exact hout hin

theorem Spreads.enter (hg : g.WellFormed) (hcyclic : g.Cyclic cycle) {b : Bool}
    (hstage : f.stage = .walking moved) (hstack : f.stack = (source, addr) :: rest)
    (hwait : mustWait g f.region { f.walk waiting with stack := rest } addr = false)
    (henter : Exploration.enter g f.around { f.walk waiting with stack := rest } addr = (b, w)) :
    ∃ entered' admitted',
      Spreads g cycle entered' admitted' (f.put w (.walking (moved || b))) fs w.waiting t := by
  have hhead : (source, addr) ∈ f.stack := hstack ▸ .head _
  have hf := h.knows f (.head _)
  obtain ⟨stack, visited, done, waiting'⟩ := w
  -- A node that was visited before changes nothing: its edges were followed then.
  obtain ⟨hvisited, rfl, rfl, hkept, hstack', hedges⟩ : (∀ a ∈ visited, a = addr ∨ a ∈ f.visited) ∧
      done = f.done ∧ waiting' = waiting ∧ (∀ e ∈ rest, e ∈ stack) ∧
      (∀ e ∈ stack, e ∈ rest ∨ ∃ n, g.Edge addr n ∧ e = (some addr, n)) ∧
      (addr ∈ entered ∨ ∀ v, g.Edge addr v → v ∈ f.around ∨ (some addr, v) ∈ stack) := by
    rcases enter_spec henter with ⟨hvisited, -, hsame⟩ | hnew
    · cases hsame
      exact ⟨fun a => .inr, rfl, rfl, fun e => id, fun e => .inl, .inl (hf.visited addr hvisited)⟩
    · refine ⟨fun a ha => mem_cons.mp (hnew.visited ▸ ha), hnew.done, hnew.waiting,
        fun e he => (hnew.stack e).mpr (.inl he), fun e he => ((hnew.stack e).mp he).imp_right ?_,
        .inr fun v huv => or_iff_not_imp_left.mpr fun hv =>
          (hnew.stack _).mpr (.inr ⟨v, huv, hv, rfl⟩)⟩
      rintro ⟨n, hn, -, rfl⟩
      exact ⟨n, hn, rfl⟩
  have hentered : entered ⊆ insert addr entered := Set.subset_insert _ _
  have hadmitted : admitted ⊆ insert addr admitted := Set.subset_insert _ _
  change ∃ entered' admitted', Spreads g cycle entered' admitted'
    { f with stack, visited, stage := .walking (moved || b) } fs waiting' t
  refine ⟨insert addr entered, insert addr admitted, { h with
    entry := hentered h.entry
    sub := Set.insert_subset_insert h.sub
    due := fun a ha => ?_
    knows := h.knows_top hentered hadmitted { hf.mono hentered hadmitted with
      visited := fun a ha => (hvisited a ha).imp_right (hf.visited a)
      ready := fun l hl => by cases hl }
    grounded := h.grounded.top rfl rfl
    stack := fun e he => ?_
    edges := fun u hu v huv => ?_
    loops := fun k nodes hk => h.loops_of_eases hadmitted (fun v old hold =>
      .inr ⟨old, hold, List.Subset.refl _⟩) hk
    tried := fun hst => by rcases hst with hst | ⟨l, hst⟩ <;> cases hst
    waits := fun hst => by obtain ⟨l, hst⟩ := hst; cases hst
    away := fun hfree c hc hin => ?_ }⟩
  · rcases ha with rfl | ha
    · exact .inl (Set.mem_insert _ _)
    · rcases h.due_top (idle_of_walking hstage) ha with hin | hin | hin
      · exact .inl (hentered hin)
      · rcases mem_cons.mp (hstack ▸ hin) with heq | hin
        · exact .inl ((Prod.mk.inj heq).2 ▸ Set.mem_insert _ _)
        · exact .inr (.inl (hkept _ hin))
      · exact .inr (.inr hin)
  · rcases hstack' e he with he | ⟨n, hn, rfl⟩
    · refine (h.stack e (hstack ▸ .tail _ he)).imp_left ?_
      rintro ⟨u, hu, heq⟩
      exact ⟨u, hentered hu, heq⟩
    · exact .inl ⟨addr, Set.mem_insert _ _, rfl, hn⟩
  · by_cases hold : u ∈ entered
    · rcases h.edges u hold v huv with hv | hv | hin
      · exact .inl (hadmitted hv)
      · exact .inr (.inl hv)
      · rcases mem_cons.mp (hstack ▸ hin) with heq | hin
        · exact .inl ((Prod.mk.inj heq).2 ▸ Set.mem_insert _ _)
        · exact .inr (.inr (hkept _ hin))
    · -- The edges of the node go on the stack; a loop around has been admitted.
      obtain rfl := hu.resolve_right hold
      exact (hedges.resolve_left hold v huv).imp (fun hv => hadmitted (hf.around v hv)) .inr
  · rcases hin with rfl | hin
    · exact h.not_mem_cycle hg hcyclic hfree hhead hwait hc
    · exact h.away hfree c hc hin

/-- Nodes go on that wait for nothing. In a cycle without a loop start each node waits for
another. -/
theorem Spreads.release (hcyclic : g.Cyclic cycle) {stage : Stage}
    (hrel : Releases f.region (f.walk waiting) w) (hold : ∀ l, f.stage ≠ .exploring l)
    (hnew : (∃ moved, stage = .walking moved) ∨ (∃ l, stage = .recording l) ∧ f.stage = .settling) :
    ∃ admitted', Spreads g cycle entered admitted' (f.put w stage) fs w.waiting t := by
  obtain ⟨stack, visited, done, waiting'⟩ := w
  obtain ⟨hvisited, hdone, hstack, hkept, hfreed, -, hkeys⟩ := hrel.frees
  dsimp only [Frame.walk] at hvisited hdone hstack hkept hfreed hkeys
  subst hvisited
  have hgone : ∀ a, f.region.holds a = true ∧ (a, []) ∈ waiting.entries ↔
      f.region.holds a = true ∧ waiting.get? a = some [] :=
    fun a => and_congr_right fun _ => ⟨OrdMap.get?_of_mem_entries h.keys_nodup, mem_entries_of_get?⟩
  simp only [hgone] at hdone hstack hkept hfreed
  have hf := h.knows f (.head _)
  have hadmitted : admitted ⊆ admitted ∪ { a | f.region.holds a = true ∧
      waiting.get? a = some [] } :=
    Set.subset_union_left
  -- What still waits has waited before, for the same nodes.
  have hstill : ∀ v missing, waiting'.get? v = some missing →
      waiting.get? v = some missing ∧ ¬ (f.region.holds v = true ∧ waiting.get? v = some []) := by
    intro v missing hv
    by_cases hgo : f.region.holds v = true ∧ waiting.get? v = some []
    · rw [hfreed v hgo] at hv
      cases hv
    · exact ⟨(hkept v hgo) ▸ hv, hgo⟩
  have hless : Eases (admitted ∪ { a | f.region.holds a = true ∧ waiting.get? a = some [] }) waiting
      waiting' := by
    intro v missing hv
    by_cases hgo : f.region.holds v = true ∧ waiting.get? v = some []
    · exact .inl (.inr hgo)
    · exact .inr ⟨missing, (hkept v hgo).trans hv, List.Subset.refl _⟩
  have hstage : ∀ l, stage ≠ .exploring l := by
    rintro l rfl
    rcases hnew with ⟨moved, hnew⟩ | ⟨⟨l, hnew⟩, -⟩ <;> cases hnew
  change ∃ admitted', Spreads g cycle entered admitted' { f with stack, done, stage } fs waiting' t
  refine ⟨admitted ∪ { a | f.region.holds a = true ∧ waiting.get? a = some [] }, { h with
    sub := h.sub.trans hadmitted
    due := fun a ha => ?_
    knows := h.knows_top (Set.Subset.refl _) hadmitted { hf.mono (Set.Subset.refl _) hadmitted with
      done := fun a ha => ((hdone a).mp ha).imp_left (hf.done a)
      ready := fun l hl => absurd hl (hstage l) }
    grounded := h.grounded.top rfl rfl
    stack := fun e he => ?_
    edges := fun u hu v huv => (h.edges_of_eases hadmitted hless hu huv).imp_right
      (Or.imp_right fun hin => (hstack _).mpr (.inl hin))
    missing := fun v missing hv => h.missing v missing (hstill v missing hv).1
    keys_nodup := hkeys h.keys_nodup
    loops := fun k nodes hk => h.loops_of_eases hadmitted hless hk
    tried := fun hst v hv => ?_
    waits := fun _ v missing hv hholds hnil => ?_
    away := fun hfree c hc hin => ?_
    held := fun hfree c hc missing hv => h.held hfree c hc missing (hstill c missing hv).1 }⟩
  · rcases ha with ha | ha
    · exact (h.due_top (fun l hl => absurd hl (hold l)) ha).imp_right
        (Or.imp_left fun hin => (hstack _).mpr (.inl hin))
    · exact .inr (.inl ((hstack _).mpr (.inr ⟨rfl, ha⟩)))
  · rcases (hstack e).mp he with he | ⟨hnone, he⟩
    · exact (h.stack e he).imp_right fun hin => ⟨hin.1, (hdone _).mpr (.inl hin.2)⟩
    · exact .inr ⟨hnone, (hdone _).mpr (.inr he)⟩
  · have hsettling : f.stage = .settling := by
      rcases hnew with ⟨moved, rfl⟩ | ⟨-, hnew⟩
      · rcases hst with hst | ⟨l, hst⟩ <;> cases hst
      · exact hnew
    obtain ⟨missing, hv⟩ := mem_keys.mp hv
    exact h.tried (.inl hsettling) v (mem_keys_of_get? (hstill v missing hv).1)
  · subst hnil
    obtain ⟨hv, hstay⟩ := hstill v [] hv
    exact hstay ⟨hholds, hv⟩
  · rcases hin with hin | ⟨-, hin⟩
    · exact h.away hfree c hc hin
    · obtain ⟨p, -, hp⟩ := Relation.TransGen.tail'_iff.mp (hcyclic c hc)
      exact absurd (h.held hfree c hc [] hin p hp.2.1 hp.1) not_mem_nil

/-- A search for loops. Of a cycle without a loop start no node waits in the region, since it would
be found to be one. -/
theorem Spreads.search (hcyclic : g.Cyclic cycle) {ready found : List Int}
    (hstage : (f.stage = .walking false ∧ f.stack = []) ∨ f.stage = .exploring [])
    (hs : Searched g f waiting t ready found waiting' t') :
    ∃ admitted', Spreads g cycle entered admitted'
      { f with starts := f.starts ++ found, stage := .afterSearch ready } fs waiting' t' := by
  have hf := h.knows f (.head _)
  have hadmitted : admitted ⊆ admitted ∪ { a | a ∈ ready } := Set.subset_union_left
  have hown : ∀ k ∈ t.own.keys, k ∈ t'.own.keys := fun k hk => (hs.detects.mem_own k).mpr (.inl hk)
  have hless : Eases (admitted ∪ { a | a ∈ ready }) waiting waiting' := by
    intro v missing hv
    by_cases hfound : v ∈ found
    · refine (hs.loop v hfound).imp .inr ?_
      rintro ⟨rest, hrest, -⟩
      obtain ⟨missing', hv', hsub⟩ := hs.shrinks v rest hrest
      obtain rfl : missing = missing' := Option.some.inj (hv.symm.trans hv')
      exact ⟨rest, hrest, hsub⟩
    · obtain ⟨rest, hrest, hiff⟩ := hs.other v hfound missing hv
      exact .inr ⟨rest, hrest, fun p hp => ((hiff p).mp hp).1⟩
  have hready : ∀ l, Stage.afterSearch ready = .exploring l → ready = l := by
    intro l hl
    cases ready with
    | nil => cases hl
    | cons a rest => exact Stage.exploring.inj hl
  refine ⟨admitted ∪ { a | a ∈ ready }, { h with
    sub := h.sub.trans hadmitted
    due := fun a ha => ?_
    knows := h.knows_top (Set.Subset.refl _) hadmitted { hf.mono (Set.Subset.refl _) hadmitted with
      ready := fun l hl a ha => .inr (hready l hl ▸ ha) }
    grounded := h.grounded.top rfl rfl
    edges := fun u hu v huv => h.edges_of_eases hadmitted hless hu huv
    missing := fun v rest hrest p hp => ?_
    keys_nodup := hs.keys_nodup h.keys_nodup
    loops := fun k nodes hk => ?_
    tried := fun _ v hv => ?_
    waits := fun hst => ?_
    away := fun hfree c hc hin => ?_
    held := fun hfree c hc rest hrest p hp hpc => ?_ }⟩
  · rcases ha with ha | ha
    · refine h.due_top (fun l hl => ?_) ha
      rcases hstage with ⟨hstage, -⟩ | hstage
      · rw [hstage] at hl
        cases hl
      · exact Stage.exploring.inj (hl.symm.trans hstage)
    · refine .inr (.inr ⟨_, .head _, ready, ?_, ha⟩)
      cases ready with
      | nil => cases ha
      | cons b rest => rfl
  · obtain ⟨missing, hv, hsub⟩ := hs.shrinks v rest hrest
    exact h.missing v missing hv p (hsub hp)
  · rcases hs.detects.get?_own hk with ⟨-, hfound, rfl⟩ | hk
    · -- A loop found now: its nodes are those on paths back, and it is ready or waits for none
      -- of them.
      exact ⟨⟨f.around, fun a ha => hadmitted (hf.around a ha), rfl⟩,
        (hs.loop k.start hfound).imp_left .inr⟩
    · exact h.loops_of_eases hadmitted hless hk
  · exact hs.detects.complete v (hs.mem_keys hv)
  · obtain ⟨l, hst⟩ := hst
    cases ready <;> cases hst
  · rcases hin with hin | hin
    · exact h.away (fun k hk => hfree k (hown k hk)) c hc hin
    · exact hfree ⟨f.entry, c⟩ ((hs.detects.mem_own _).mpr (.inr ⟨rfl, hs.sub c hin⟩)) hc
  · have hfree₀ : ∀ k ∈ t.own.keys, k.start ∉ cycle := fun k hk => hfree k (hown k hk)
    have hnotFound : c ∉ found := fun hin =>
      hfree ⟨f.entry, c⟩ ((hs.detects.mem_own _).mpr (.inr ⟨rfl, hin⟩)) hc
    obtain ⟨missing, hmissing, -⟩ := hs.shrinks c rest hrest
    obtain ⟨rest', hrest', hiff⟩ := hs.other c hnotFound missing hmissing
    obtain rfl : rest = rest' := Option.some.inj (hrest.symm.trans hrest')
    refine (hiff p).mpr ⟨h.held hfree₀ c hc missing hmissing p hp hpc, fun hholds => ?_⟩
    obtain ⟨q, hround, hback⟩ := Relation.TransGen.tail'_iff.mp (hcyclic c hc)
    have hq : q ∈ g.succs.paths c c f.around :=
      Graph.mem_paths_of_within hround hback fun a ha hin => h.away hfree₀ a hin (hf.around a ha)
    rcases hs.detects.complete c (mem_keys_of_get? hmissing) hholds with hknown | hnone
    · exact absurd hc (hfree ⟨f.entry, c⟩ hknown)
    · rw [hnone] at hq
      cases hq

/-- A loop is entered on a level of its own. -/
theorem Spreads.descend {rest : List Int} (hstage : f.stage = .exploring (addr :: rest))
    (hidle : f.stack = []) :
    Spreads g cycle (insert addr entered) admitted (f.inside g t addr)
      ({ f with stage := .exploring rest } :: fs) waiting t := by
  have hf := h.knows f (.head _)
  have haddr : addr ∈ admitted := hf.ready _ hstage addr (.head _)
  have hentered : entered ⊆ insert addr entered := Set.subset_insert _ _
  refine { h with
    entry := hentered h.entry
    sub := Set.insert_subset haddr h.sub
    due := fun a ha => ?_
    knows := fun o ho => ?_
    outer := forall_mem_cons.mpr ⟨⟨rest, rfl⟩, h.outer⟩
    grounded := (h.grounded.top rfl rfl : Grounded ({ f with stage := .exploring rest } :: fs))
    stack := fun e he => ?_
    edges := fun u hu v huv => ?_
    tried := fun hst => by rcases hst with hst | ⟨l, hst⟩ <;> cases hst
    waits := fun hst => by obtain ⟨l, hst⟩ := hst; cases hst }
  · rcases h.due a ha with hin | hin | ⟨o, ho, l, hl, hal⟩
    · exact .inl (hentered hin)
    · rw [hidle] at hin
      cases hin
    · rcases mem_cons.mp ho with rfl | ho
      · obtain rfl := Stage.exploring.inj (hstage.symm.trans hl)
        rcases mem_cons.mp hal with rfl | hal
        · exact .inl (Set.mem_insert _ _)
        · exact .inr (.inr ⟨_, .tail _ (.head _), rest, rfl, hal⟩)
      · exact .inr (.inr ⟨o, .tail _ (.tail _ ho), l, hl, hal⟩)
  · have hmid := hf.mono hentered (Set.Subset.refl _)
    rcases mem_cons.mp ho with rfl | ho
    · refine ⟨fun a ha => ?_, hmid.done, fun a ha => ?_, fun l hl => by cases hl⟩
      · rcases mem_insert_iff.mp ha with rfl | ha
        · exact Set.mem_insert _ _
        · rcases mem_insert_iff.mp ha with rfl | ha
          · exact Set.mem_insert _ _
          · exact hmid.visited a ha
      · rcases mem_insert_iff.mp ha with rfl | ha
        · exact haddr
        · exact hf.around a ha
    · rcases mem_cons.mp ho with rfl | ho
      · refine { hmid with ready := fun l hl a ha => ?_ }
        obtain rfl := Stage.exploring.inj hl
        exact hf.ready _ hstage a (.tail _ ha)
      · exact (h.knows o (.tail _ ho)).mono hentered (Set.Subset.refl _)
  · obtain ⟨n, hn, rfl⟩ := mem_map.mp (mem_reverse.mp he)
    exact .inl ⟨addr, Set.mem_insert _ _, rfl, hn⟩
  · rcases hu with rfl | hu
    · exact .inr (.inr (mem_reverse.mpr (mem_map_of_mem huv)))
    · refine (h.edges u hu v huv).imp_right (Or.imp_right fun hin => ?_)
      rw [hidle] at hin
      cases hin

theorem Spreads.record {left : List Int} (hstage : f.stage = .recording l) (hown : t'.own = t.own) :
    Spreads g cycle entered admitted { f with stage := .recording left } fs waiting t' := by
  have hrecording : ∃ l, f.stage = .recording l := ⟨l, hstage⟩
  refine { h with
    due := fun a ha => ?_
    knows := h.knows_top (Set.Subset.refl _) (Set.Subset.refl _)
      { h.knows f (.head _) with ready := fun l hl => by cases hl }
    grounded := h.grounded.top rfl rfl
    loops := fun k nodes hk => h.loops k nodes (hown ▸ hk)
    tried := fun _ => hown ▸ h.tried (.inr hrecording)
    waits := fun _ => h.waits hrecording
    away := fun hfree => h.away (hown ▸ hfree)
    held := fun hfree => h.held (hown ▸ hfree) }
  refine h.due_top (fun l hl => ?_) ha
  rw [hstage] at hl
  cases hl

end

/-- A level returns to the one around it. -/
theorem Spreads.leave {o : Frame} (h : Spreads g cycle entered admitted f (o :: fs) waiting t)
    (hstage : f.stage = .recording l) (hidle : f.stack = []) (hidle' : o.stack = []) :
    Spreads g cycle entered admitted o fs waiting t := by
  obtain ⟨l', hl'⟩ := h.outer o (.head _)
  refine { h with
    due := fun a ha => ?_
    knows := fun o' ho' => h.knows o' (.tail _ ho')
    outer := fun o' ho' => h.outer o' (.tail _ ho')
    grounded := h.grounded
    stack := fun e he => by rw [hidle'] at he; cases he
    edges := fun u hu v huv => ?_
    tried := fun hst => by rw [hl'] at hst; rcases hst with hst | ⟨l, hst⟩ <;> cases hst
    waits := fun hst => by rw [hl'] at hst; obtain ⟨l, hst⟩ := hst; cases hst }
  · rcases h.due a ha with hin | hin | ⟨o', ho', l'', hl, hal⟩
    · exact .inl hin
    · rw [hidle] at hin
      cases hin
    · rcases mem_cons.mp ho' with rfl | ho'
      · rw [hstage] at hl
        cases hl
      · exact .inr (.inr ⟨o', ho', l'', hl, hal⟩)
  · refine (h.edges u hu v huv).imp_right (Or.imp_right fun hin => ?_)
    rw [hidle] at hin
    cases hin

/-! ## The end of a run -/

/-- A relation in which everything has something before it goes round on a finite type. -/
theorem exists_transGen_self {α : Type} [Finite α] [Nonempty α] {r : α → α → Prop}
    (h : ∀ b, ∃ a, r a b) : ∃ a, Relation.TransGen r a a := by
  by_contra hno
  have : Std.Irrefl (Relation.TransGen r) := ⟨fun a ha => hno ⟨a, ha⟩⟩
  have hwf := Finite.wellFounded_of_trans_of_irrefl (Relation.TransGen r)
  obtain ⟨a, -, hmin⟩ := hwf.has_min Set.univ Set.univ_nonempty
  obtain ⟨b, hb⟩ := h a
  exact hmin b trivial (.single hb)

/-- A node that was not entered with a predecessor that was. -/
def Front (g : Graph) (entered : Set Int) (v : Int) : Prop :=
  v ∉ entered ∧ ∃ u ∈ entered, g.Edge u v

/-- What is reachable and was not entered is reached from the front without coming to a node that
was entered. -/
theorem exists_front (hentry : g.entry ∈ entered) (h : g.Reachable v) (hv : v ∉ entered) :
    ∃ u, Front g entered u ∧ Relation.ReflTransGen (g.Within enteredᶜ) u v := by
  induction h with
  | refl => exact absurd hentry hv
  | @tail b c _ hedge ih =>
    by_cases hb : b ∈ entered
    · exact ⟨c, ⟨hv, b, hb, hedge⟩, .refl⟩
    · obtain ⟨u, hu, hreach⟩ := ih hb
      exact ⟨u, hu, hreach.tail ⟨hedge, hb, hv⟩⟩

/-- The search of a graph is over when every node that it can reach has been entered. -/
theorem Spreads.all_entered (h : Spreads g cycle entered admitted f [] waiting t)
    (hg : g.WellFormed) (hstage : f.stage = .recording l) (hidle : f.stack = []) :
    ∀ v, g.Reachable v → v ∈ entered := by
  have hsame : admitted ⊆ entered := by
    intro a ha
    rcases h.due a ha with hin | hin | ⟨o, ho, l', hl, -⟩
    · exact hin
    · rw [hidle] at hin
      cases hin
    · rw [mem_singleton.mp ho, hstage] at hl
      cases hl
  have hedges : ∀ u ∈ entered, ∀ v ∉ entered, g.Edge u v →
      ∃ missing, waiting.get? v = some missing ∧ u ∉ missing := by
    intro u hu v hv huv
    rcases h.edges u hu v huv with hin | hwait | hin
    · exact absurd (hsame hin) hv
    · exact hwait
    · rw [hidle] at hin
      cases hin
  obtain ⟨haround, hregion⟩ := h.grounded
  have hholds : ∀ v, f.region.holds v = true := fun v => by rw [hregion]; rfl
  by_contra hnot
  push Not at hnot
  obtain ⟨v₀, hreach₀, hout₀⟩ := hnot
  -- One node of the front after another waits for a node that is reached from the next.
  let behind : { v // Front g entered v } → { v // Front g entered v } → Prop := fun u v =>
    ∃ missing p, waiting.get? v.1 = some missing ∧ p ∈ missing ∧
      Relation.ReflTransGen (g.Within enteredᶜ) u.1 p ∧ g.Within enteredᶜ p v.1
  have hbehind : ∀ v, ∃ u, behind u v := by
    rintro ⟨v, hv, u, hu, huv⟩
    obtain ⟨missing, hmissing, -⟩ := hedges u hu v hv huv
    obtain ⟨p, hp⟩ := exists_mem_of_ne_nil _ (h.waits ⟨l, hstage⟩ v missing hmissing (hholds v))
    have hpv := h.missing v missing hmissing p hp
    have hpout : p ∉ entered := by
      intro hin
      obtain ⟨missing', hmissing', hnotin⟩ := hedges p hin v hv hpv
      obtain rfl : missing = missing' := Option.some.inj (hmissing.symm.trans hmissing')
      exact hnotin hp
    obtain ⟨u', hu', hreach⟩ :=
      exists_front h.entry (hg.reachable p (Graph.mem_nodes_of_edge hg hpv)) hpout
    exact ⟨⟨u', hu'⟩, missing, p, hmissing, hp, hreach, hpv, hpout, hv⟩
  have : Finite { v // Front g entered v } := by
    refine Set.Finite.subset (finite_toSet g.nodes.keys) fun v hv => ?_
    obtain ⟨-, u, -, huv⟩ := hv
    exact hg.closed u v huv
  obtain ⟨v₁, hv₁, -⟩ := exists_front h.entry hreach₀ hout₀
  have : Nonempty { v // Front g entered v } := ⟨⟨v₁, hv₁⟩⟩
  obtain ⟨⟨v, hv⟩, hround⟩ := exists_transGen_self hbehind
  obtain ⟨u, hto, missing, p, hmissing, hp, hreach, hback⟩ := Relation.TransGen.tail'_iff.mp hround
  -- So one of them waits for a node on a path back to itself.
  have hwalk : ∀ u, Relation.ReflTransGen behind ⟨v, hv⟩ u →
      Relation.ReflTransGen (g.Within enteredᶜ) v u.1 := by
    intro u hto
    induction hto with
    | refl => exact .refl
    | tail _ hab ih =>
      obtain ⟨-, q, -, -, haq, hqb⟩ := hab
      exact (ih.trans haq).tail hqb
  have hloop : Relation.ReflTransGen (g.Within enteredᶜ) v p := (hwalk u hto).trans hreach
  have hpaths : ∀ around : List Int, (∀ a ∈ around, a ∈ admitted) → p ∈ g.succs.paths v v around :=
    fun around hin => Graph.mem_paths_of_within hloop hback fun a ha hout => hout (hsame (hin a ha))
  rcases h.tried (.inr ⟨l, hstage⟩) v (mem_keys_of_get? hmissing) (hholds v) with hknown | hnone
  · obtain ⟨nodes, hnodes⟩ := mem_keys.mp hknown
    obtain ⟨⟨around, hadmitted, rfl⟩, hstart⟩ := h.loops _ nodes hnodes
    rcases hstart with hin | ⟨missing', hmissing', hfree⟩
    · exact hv.1 (hsame hin)
    · obtain rfl : missing = missing' := Option.some.inj (hmissing.symm.trans hmissing')
      exact hfree p hp (hpaths around hadmitted)
  · have hin := hpaths f.around fun a ha => (h.knows f (.head _)).around a ha
    rw [hnone] at hin
    cases hin

/-- What holds along a run; at its end a cycle that is reachable has a loop start. -/
def Config.Spreads (g : Graph) (cycle : Set Int) : Config → Prop
  | .running [] _ t => (∀ k ∈ t.own.keys, k.start ∉ cycle) → ∀ c ∈ cycle, ¬ g.Reachable c
  | .running (f :: fs) waiting t =>
    ∃ entered admitted, Exploration.Spreads g cycle entered admitted f fs waiting t
  | .failed _ => True

theorem Config.Spreads.step {c c' : Config} (hg : g.WellFormed) (hcyclic : g.Cyclic cycle)
    (hfit : c.Fits g) (h : c.Spreads g cycle) (hstep : Step g c c') : c'.Spreads g cycle := by
  cases hstep with
  | wait hstage hstack hwait harrive =>
    obtain ⟨entered, admitted, h⟩ := h
    exact ⟨entered, admitted, h.wait hg hstage hstack hwait harrive⟩
  | strand | misrecord => exact trivial
  | enter hstage hstack hwait henter =>
    obtain ⟨entered, admitted, h⟩ := h
    exact h.enter hg hcyclic hstage hstack hwait henter
  | pause hstage _ hrel | resume hstage hrel =>
    obtain ⟨entered, admitted, h⟩ := h
    exact ⟨entered, h.release hcyclic hrel (by simp [hstage]) (.inl ⟨false, rfl⟩)⟩
  | search hstage hsearch =>
    obtain ⟨entered, admitted, h⟩ := h
    exact ⟨entered, h.search hcyclic hstage hsearch.searched⟩
  | @descend f fs waiting t addr rest hstage =>
    obtain ⟨entered, admitted, h⟩ := h
    exact ⟨_, admitted, h.descend hstage ((hfit.frame f (.head _)).idle (by simp [hstage]))⟩
  | settle hstage hrel =>
    obtain ⟨entered, admitted, h⟩ := h
    exact ⟨entered, h.release hcyclic hrel (by simp [hstage]) (.inr ⟨⟨_, rfl⟩, hstage⟩)⟩
  | record hstage hrecord =>
    obtain ⟨entered, admitted, h⟩ := h
    exact ⟨entered, admitted, h.record hstage (own_of_recordLoop hrecord)⟩
  | @leave f fs waiting t hstage =>
    obtain ⟨entered, admitted, h⟩ := h
    have hidle : f.stack = [] := (hfit.frame f (.head _)).idle (by simp [hstage])
    cases fs with
    | nil =>
      intro hfree c hc hreach
      exact h.away hfree c hc (h.sub (h.all_entered hg hstage hidle c hreach))
    | cons o fs =>
      obtain ⟨l, hl⟩ := h.outer o (.head _)
      refine ⟨entered, admitted, h.leave hstage hidle ?_⟩
      exact (hfit.frame o (.tail _ (.head _))).idle (by simp [hl])

theorem Config.Spreads.of_reaches {c : Config} (hg : g.WellFormed) (hcyclic : g.Cyclic cycle)
    (hentry : g.entry ∉ cycle) (h : Reaches g (Config.start g) c) : c.Spreads g cycle := by
  induction h with
  | refl => exact ⟨_, _, Exploration.Spreads.start g hentry⟩
  | tail hreach hstep ih => exact ih.step hg hcyclic (Config.Fits.of_reaches hreach) hstep

end Exploration

open Exploration

/-- A closed walk: each node leads to the next, and the last one to the first. -/
def Graph.IsCycle (g : Graph) : List Int → Prop
  | [] => False
  | a :: rest => (a :: (rest ++ [a])).IsChain g.Edge

namespace Graph

variable {g : Graph}

instance (g : Graph) : DecidableRel g.Edge := fun a b => inferInstanceAs (Decidable (b ∈ g.next a))

instance (g : Graph) : (l : List Int) → Decidable (g.IsCycle l)
  | [] => inferInstanceAs (Decidable False)
  | a :: rest => inferInstanceAs (Decidable ((a :: (rest ++ [a])).IsChain g.Edge))

theorem transGen_of_isChain {r : Int → Int → Prop} (h : (a :: l).IsChain r) :
    ∀ b ∈ l, Relation.TransGen r a b := by
  have hpairs := (h.imp fun _ _ => Relation.TransGen.single).pairwise
  exact fun b hb => rel_of_pairwise_cons hpairs hb

/-- Every node of a closed walk lies on a cycle in it. -/
theorem IsCycle.cyclic (h : g.IsCycle l) : g.Cyclic { a | a ∈ l } := by
  cases l with
  | nil => exact h.elim
  | cons a rest =>
    have hwithin : (a :: (rest ++ [a])).IsChain (g.Within { x | x ∈ a :: rest }) := by
      have hmem : ∀ x ∈ a :: (rest ++ [a]), x ∈ a :: rest := by
        intro x hx
        rcases mem_cons.mp hx with rfl | hx
        · exact (.head _)
        · rcases mem_append.mp hx with hx | hx
          · exact .tail _ hx
          · exact mem_singleton.mp hx ▸ .head _
      refine isChain_iff_getElem.mpr fun i hi => ⟨isChain_iff_getElem.mp h i hi, ?_, ?_⟩
      · exact hmem _ (getElem_mem _)
      · exact hmem _ (getElem_mem _)
    have hround : Relation.TransGen (g.Within { x | x ∈ a :: rest }) a a :=
      transGen_of_isChain hwithin a (mem_append_right _ (.head _))
    intro c hc
    rcases mem_cons.mp hc with rfl | hc
    · exact hround
    · obtain ⟨front, back, rfl⟩ := append_of_mem hc
      have hto := transGen_of_isChain hwithin c (mem_append_left _ (mem_append_right _ (.head _)))
      have hsuffix : (c :: (back ++ [a])).IsChain
          (g.Within { x | x ∈ a :: (front ++ c :: back) }) := by
        refine hwithin.suffix ⟨a :: front, ?_⟩
        simp
      exact (transGen_of_isChain hsuffix a (mem_append_right _ (.head _))).trans hto

/-- The search for loops misses no cycle away from the entry, in whatever order it goes through its
sets: every closed walk of a flow graph that does not pass through the entry has a loop start of
each of its nests on it. -/
theorem loopNest_meets_cycles {p p' : Program} (hp : p.Keyed) {entry : Int} {g₀ : Graph}
    (hfound : Graph.discover entry p = .ok (some g₀) p') (hblocks : g₀.blocks p.arch = .ok g)
    {nest : LoopNest} (hnest : g.HasNest nest) {cycle : List Int} (hcycle : g.IsCycle cycle)
    (hentry : entry ∉ cycle) : ∃ a ∈ cycle, a ∈ nest.starts := by
  obtain ⟨hwf, -, rfl⟩ := wellFormed_of_blocks hp hfound hblocks
  obtain ⟨t, equiv, spurious, hfinds, hnest⟩ := hnest
  obtain ⟨-, hall, rfl⟩ := hfinds.sound hwf
  obtain ⟨closing, -, rfl⟩ := closing_of_assemble hnest
  obtain ⟨waiting, found, hreach, hown, -⟩ := hfinds.exists_run
  have hend : Config.Spreads g { a | a ∈ cycle } (.running [] waiting found) :=
    Config.Spreads.of_reaches hwf hcycle.cyclic hentry hreach
  by_contra hnone
  push Not at hnone
  -- Otherwise no loop start is on the cycle, and then no node of it could be reached.
  have hfree : ∀ k ∈ found.own.keys, k.start ∉ { a | a ∈ cycle } := by
    intro k hk hin
    refine hnone k.start hin ?_
    rw [mem_distinct]
    exact mem_map_of_mem ((hall k).mpr (hown ▸ hk))
  cases cycle with
  | nil => exact hcycle
  | cons a rest =>
    have hedge : ∃ b, g.Edge a b := by
      obtain ⟨b, hab, -⟩ := Relation.TransGen.head'_iff.mp (hcycle.cyclic a (.head _))
      exact ⟨b, hab.1⟩
    obtain ⟨b, hab⟩ := hedge
    exact hend hfree a (.head _) (hwf.reachable a (mem_nodes_of_edge hwf hab))

/-- Two loops that share a node, the first of which can be entered at two places: both have a
start. -/
theorem loopNest_meets_cycles_shared :
    ∃ (p' : Program) (g₀ g : Graph) (nest : LoopNest),
      Graph.discover 0 (OneByte.program [.run, .fork 3, .fork 1, .fork 2, .jump 3]) =
      .ok (some g₀) p' ∧ g₀.blocks .x86 = .ok g ∧ g.loopNest = .ok nest ∧
      (g.IsCycle [1, 3, 2] ∧ ∃ a ∈ ([1, 3, 2] : List Int), a ∈ nest.starts) ∧
      g.IsCycle [3, 4] ∧ ∃ a ∈ ([3, 4] : List Int), a ∈ nest.starts := by
  have hval : (OneByte.nested? [.run, .fork 3, .fork 1, .fork 2, .jump 3]).map (fun r =>
      decide (r.graph.IsCycle [1, 3, 2] ∧ r.graph.IsCycle [3, 4])) = some true := by
    decide +kernel
  obtain ⟨r, hr, hcycles⟩ := Option.map_eq_some_iff.mp hval
  obtain ⟨hfirst, hsecond⟩ := of_decide_eq_true hcycles
  obtain ⟨p', g₀, hfound, hblocks, -, hnest⟩ := OneByte.exists_of_nested? hr
  have hmeets : ∀ cycle : List Int, r.graph.IsCycle cycle → 0 ∉ cycle →
      ∃ a ∈ cycle, a ∈ r.nest.starts :=
    fun cycle => loopNest_meets_cycles (OneByte.program_keyed _) hfound hblocks
      (hasNest_of_loopNest hnest)
  exact ⟨p', g₀, r.graph, r.nest, hfound, hblocks, hnest, ⟨hfirst, hmeets _ hfirst (by decide)⟩,
    hsecond, hmeets _ hsecond (by decide)⟩

end Graph

end Decompiler
