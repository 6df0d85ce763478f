import Decompiler.Proofs.LooplessSteps
/-!
# Every node of a graph without cycles is placed

In a graph without cycles a node is placed after all its predecessors. Every edge out of a node that
is placed leads to another one, is followed by a task, or has come to a node that is put off
(`Build.Arrives`). So no task comes to a node that does not wait for it, and a structuring goes
through (`Structuring.build_returns`). At its end nothing is put off: a node that waits would wait
for another one that is not placed, and those would go round (`Build.Arrives.mem_visited`).
-/

namespace Decompiler

open List Structuring

variable {g : Graph} {visited : List Int} {pending : OrdMap Int Pending} {d' : Draft}
  {more : List Task}

/-- A node that is put off waits for some of its predecessors, and the others have been placed. -/
structure Pending.Due (g : Graph) (visited : List Int) (a : Int) (p : Pending) : Prop where
  new : a ∉ visited
  several : 1 < (g.preds.getD a []).length
  more : p.awaited ≠ []
  edges : ∀ q ∈ p.awaited, g.Edge q a
  come : ∀ q, g.Edge q a → q ∈ p.awaited ∨ q ∈ visited

/-- Another node is placed. -/
theorem Pending.Due.cons {a v : Int} {p : Pending} (h : p.Due g visited a) (hne : a ≠ v) :
    p.Due g (v :: visited) a :=
  ⟨not_mem_cons_of_ne_of_not_mem hne h.new, h.several, h.more, h.edges,
    fun q hq => (h.come q hq).imp_right (mem_cons_of_mem v)⟩

/-- A node that waits for all its predecessors is due. -/
theorem Pending.due_waitsFor (hg : g.WellFormed) {a : Int} (hnew : a ∉ visited)
    (hseveral : 1 < (g.preds.getD a []).length) {branches : List Nat} {starts : List Int} :
    Pending.Due g visited a ⟨branches, waitsFor g a, starts⟩ := by
  refine ⟨hnew, hseveral, ?_, fun q hq => (mem_waitsFor hg).mp hq, fun q hq =>
    .inl ((mem_waitsFor hg).mpr hq)⟩
  obtain ⟨q, hq⟩ := exists_mem_of_length_pos (Nat.lt_trans Nat.zero_lt_one hseveral)
  exact ne_nil_of_mem ((mem_waitsFor hg).mpr ((Graph.mem_preds_iff hg).mp hq))

/-- An edge out of a node that is placed has been dealt with: it leads to another node that is
placed, or a task follows it, or the node it leads to does not wait for it any more. -/
def Build.Followed (s : Build) (u v : Int) : Prop :=
  v ∈ s.visited ∨ (∃ t ∈ s.tasks, t.source = some u ∧ t.addr = v) ∨ ∃ p, s.pending.get? v = some p ∧
    u ∉ p.awaited

/-- The order in which nodes are placed: every task follows an edge, nodes are placed after their
predecessors, and no edge out of them is forgotten. -/
structure Build.Arrives (g : Graph) (s : Build) : Prop where
  plain : ∀ t ∈ s.tasks, t.loops = [] ∧ ∃ b, t.branch = some b
  sources : ∀ t ∈ s.tasks, ∀ q, t.source = some q → q ∈ s.visited ∧ g.Edge q t.addr
  first : ∀ t ∈ s.tasks, t.source = none → t.addr = g.entry ∧ s.tasks = [t] ∧ s.visited = []
  above : ∀ u v, v ∈ s.visited → g.Edge u v → u ∈ s.visited
  pending : ∀ a p, s.pending.get? a = some p → p.Due g s.visited a
  followed : ∀ u v, u ∈ s.visited → g.Edge u v → s.Followed u v

namespace Structuring

variable {subj : Subject} {s s' : Build} {t : Task} {b : Nat} {g : Graph} {joint : Option Int}
  {a : Int} {p : Pending}

/-! ## What waits -/

theorem get?_foreseen_of_get? (h : pending.get? a = some p) :
    (foreseen g b joint pending).get? a = some p := by
  unfold foreseen
  split
  · exact h
  · rename_i j
    split
    · rename_i hnew
      have hja : j ≠ a := by
        rintro rfl
        simp [OrdMap.contains, h] at hnew
      rw [OrdMap.get?_insert, if_neg hja]
      exact h
    · exact h

theorem get?_foreseen (h : (foreseen g b joint pending).get? a = some p) :
    pending.get? a = some p ∨
      joint = some a ∧ 1 < (g.preds.getD a []).length ∧ p = ⟨[b], waitsFor g a, [g.entry]⟩ := by
  unfold foreseen at h
  split at h
  · exact .inl h
  · rename_i j
    split at h
    · rename_i hnew
      rcases OrdMap.of_get?_insert h with ⟨rfl, rfl⟩ | h
      · obtain ⟨hseveral, -⟩ := Bool.and_eq_true_iff.mp hnew
        exact .inr ⟨rfl, of_decide_eq_true hseveral, rfl⟩
      · exact .inl h
    · exact .inl h

variable {d : Draft}

/-- When the waiting for a node ends, the others still wait. -/
theorem Assembles.get?_waiting {best : Nat} {waiting : OrdMap Int Pending}
    (h : Assembles subj (scopeOf subj []) t b s best d waiting)
    (hdue : ∀ p, s.pending.get? t.addr = some p → 1 < (subj.graph.preds.getD t.addr []).length) :
    waiting.get? a = some p ↔ a ≠ t.addr ∧ s.pending.get? a = some p := by
  cases h with
  | alone few =>
    refine ⟨fun hp => ⟨?_, hp⟩, fun hp => hp.2⟩
    rintro rfl
    rw [(few (hdue p hp)).1] at hp
    cases hp
  | together =>
    rw [OrdMap.get?_erase]
    split
    · rename_i haddr
      exact ⟨fun hp => absurd hp (by simp), fun hp => absurd haddr.symm hp.1⟩
    · rename_i haddr
      exact ⟨fun hp => ⟨Ne.symm haddr, hp⟩, fun hp => hp.2⟩

/-- A node that is placed leads on to its successors. -/
theorem Adjoins.tasks (h : Adjoins g a b d joint more d') :
    (∀ t ∈ more, ∃ c v, Leads t c a v ∧ g.Edge a v) ∧ ∀ v, g.Edge a v →
      ∃ t ∈ more, t.source = some a ∧ t.addr = v := by
  cases h with
  | stop _ next =>
    refine ⟨forall_mem_nil _, fun v hv => ?_⟩
    rw [Graph.Edge, next] at hv
    cases hv
  | step _ next leads =>
    refine ⟨fun t ht => ?_, fun v hv => ?_⟩
    · rw [mem_singleton.mp ht]
      exact ⟨_, _, leads, by rw [Graph.Edge, next]; exact (.head _)⟩
    · rw [Graph.Edge, next] at hv
      rw [mem_singleton.mp hv]
      exact ⟨_, .head _, leads.source, leads.addr⟩
  | fork _ next _ leads other =>
    refine ⟨fun t ht => ?_, fun v hv => ?_⟩
    · rcases mem_pair.mp ht with rfl | rfl
      · exact ⟨_, _, other, by rw [Graph.Edge, next]; exact .tail _ (.head _)⟩
      · exact ⟨_, _, leads, by rw [Graph.Edge, next]; exact (.head _)⟩
    · rw [Graph.Edge, next] at hv
      rcases mem_pair.mp hv with rfl | rfl
      · exact ⟨_, .tail _ (.head _), leads.source, leads.addr⟩
      · exact ⟨_, .head _, other.source, other.addr⟩

theorem Adjoins.meets (h : Adjoins g a b d joint more d') :
    ∀ j, joint = some j → Relation.TransGen g.Edge a j := by
  cases h with
  | stop | step => intro j hj; cases hj
  | fork _ _ meets => exact meets

end Structuring

namespace Build.Arrives

variable {subj : Subject} {s s' : Build} {t : Task} {rest : List Task} {b : Nat}

/-- What is behind a node that is not placed is not placed. -/
theorem not_mem_visited (h : s.Arrives g) {a j : Int} (ha : a ∉ s.visited)
    (hj : Relation.TransGen g.Edge a j) : j ∉ s.visited := by
  induction hj with
  | single hedge => exact fun hmem => ha (h.above _ _ hmem hedge)
  | tail _ hedge ih => exact fun hmem => ih (h.above _ _ hmem hedge)

/-! ## One step -/

section Step

variable (hsubj : subj.Loopless) (h : s.Arrives subj.graph) (htasks : s.tasks = t :: rest)
  {p : Pending} {best : Nat} {d : Draft} {waiting : OrdMap Int Pending}

include h htasks in
theorem plain_top : t.loops = [] ∧ ∃ b, t.branch = some b := h.plain t (htasks ▸ .head _)

include h htasks in
/-- Only the first task follows no edge. -/
theorem source_ne_none {t' : Task} (ht' : t' ∈ rest) : t'.source ≠ none := by
  intro hsource
  obtain ⟨-, hone, -⟩ := h.first t' (htasks ▸ mem_cons_of_mem t ht') hsource
  rw [htasks] at hone
  cases hone
  cases ht'

include hsubj h htasks in
/-- A task that comes to a node with several predecessors follows an edge. -/
theorem source_top (hpreds : subj.graph.preds.getD t.addr [] ≠ []) :
    ∃ q, t.source = some q ∧ q ∈ s.visited ∧ subj.graph.Edge q t.addr := by
  have hmem : t ∈ s.tasks := htasks ▸ .head _
  cases hsource : t.source with
  | none =>
    obtain ⟨q, hq⟩ := exists_mem_of_ne_nil _ hpreds
    rw [(h.first t hmem hsource).1] at hq
    exact absurd ((Graph.mem_preds_iff hsubj.graph).mp hq)
      (hsubj.acyclic.not_edge_entry hsubj.graph q)
  | some q => exact ⟨q, rfl, h.sources t hmem q hsource⟩

include hsubj h htasks in
/-- A node that is put off is due. -/
theorem due_of_delays (hnew : t.addr ∉ s.visited)
    (hseveral : 1 < (subj.graph.preds.getD t.addr []).length)
    (hp : Delays subj (scopeOf subj []) t b { s with tasks := rest } p) :
    p.Due subj.graph s.visited t.addr ∧ ∀ q, t.source = some q → q ∉ p.awaited := by
  have hmem : t ∈ s.tasks := htasks ▸ .head _
  cases hp with
  | @first q _ source several mem =>
    rw [hsubj.awaited_eq] at several mem ⊢
    have hnodup := Exploration.nodup_distinct (subj.graph.preds.getD t.addr [])
    have hq := (h.sources t hmem q source).1
    refine ⟨⟨hnew, hseveral, ?_, fun u hu => ?_, fun u hu => ?_⟩, fun q' hq' => ?_⟩
    · have hpos : 0 < ((waitsFor subj.graph t.addr).erase q).length := by
        rw [length_erase_of_mem mem]
        omega
      exact ne_nil_of_length_pos hpos
    · exact (mem_waitsFor hsubj.graph).mp (mem_of_mem_erase hu)
    · by_cases huq : u = q
      · exact .inr (huq ▸ hq)
      · exact .inl ((mem_erase_of_ne huq).mpr ((mem_waitsFor hsubj.graph).mpr hu))
    · rw [source] at hq'
      rw [← Option.some.inj hq']
      exact hnodup.not_mem_erase
  | @again p known more =>
    have hdue := h.pending _ _ known
    refine ⟨⟨hnew, hseveral, more, fun u hu => hdue.edges u (mem_filter.mp hu).1, fun u hu => ?_⟩,
      fun q hq hmem => ?_⟩
    · rcases hdue.come u hu with hu' | hu'
      · by_cases hsource : some u = t.source
        · exact .inr (h.sources t hmem u hsource.symm).1
        · exact .inl (mem_filter.mpr ⟨hu', by simpa using hsource⟩)
      · exact .inr hu'
    · have := (mem_filter.mp hmem).2
      rw [hq] at this
      simp at this

include hsubj h htasks in
/-- A node is placed after its predecessors. -/
theorem preds_of_assembles
    (ha : Assembles subj (scopeOf subj []) t b { s with tasks := rest } best d waiting) {u : Int}
    (hu : subj.graph.Edge u t.addr) : u ∈ s.visited := by
  have hmem : t ∈ s.tasks := htasks ▸ .head _
  have hpreds : subj.graph.preds.getD t.addr [] ≠ [] :=
    ne_nil_of_mem ((Graph.mem_preds_iff hsubj.graph).mpr hu)
  obtain ⟨q, hsource, hq, hedge⟩ := h.source_top hsubj htasks hpreds
  cases ha with
  | alone few =>
    have short : (waitsFor subj.graph t.addr).length ≤ 1 := by
      by_cases hseveral : 1 < (subj.graph.preds.getD t.addr []).length
      · exact hsubj.awaited_eq t.addr ▸ (few hseveral).2
      · have hsub := (Exploration.nodup_distinct (subj.graph.preds.getD t.addr [])).subperm fun _ =>
          Exploration.mem_distinct.mp
        exact hsub.length_le.trans (Nat.not_lt.mp hseveral)
    -- The only predecessor is the one that the task comes from.
    have hone : u = q := by
      have hu' := (mem_waitsFor hsubj.graph).mpr hu
      have hq' := (mem_waitsFor hsubj.graph).mpr hedge
      obtain ⟨w, hw⟩ := length_eq_one_iff.mp (short.antisymm (length_pos_of_mem hu'))
      rw [hw] at hu' hq'
      rw [mem_singleton.mp hu', mem_singleton.mp hq']
    rwa [hone]
  | @together p _ _ known last =>
    rcases (h.pending _ _ known).come u hu with hu' | hu'
    · by_cases huq : u = q
      · rwa [huq]
      · have hleft : u ∈ (p.addWay b t.source (scopeOf subj []).start).awaited :=
          mem_filter.mpr ⟨hu', by rw [hsource]; simpa using huq⟩
        rw [last] at hleft
        cases hleft
    · exact hu'

include h htasks in
/-- A task is done with, and no node is placed. -/
theorem of_rest (tasks : s'.tasks = rest) (visited : s'.visited = s.visited)
    (pending : ∀ a p, s'.pending.get? a = some p → p.Due subj.graph s.visited a)
    (top : ∀ u, t.source = some u → u ∈ s.visited → s'.Followed u t.addr)
    (kept : ∀ u a p, s.pending.get? a = some p → u ∉ p.awaited → s'.Followed u a) :
    s'.Arrives subj.graph := by
  have hrest : ∀ t' ∈ s'.tasks, t' ∈ s.tasks :=
    fun t' ht' => htasks ▸ mem_cons_of_mem t (tasks ▸ ht')
  refine ⟨fun t' ht' => h.plain t' (hrest t' ht'), ?_,
    fun t' ht' hsource => absurd hsource (h.source_ne_none htasks (tasks ▸ ht')), ?_, ?_, ?_⟩
  · rw [visited]
    exact fun t' ht' => h.sources t' (hrest t' ht')
  · rw [visited]
    exact h.above
  · rw [visited]
    exact pending
  · intro u v hu hedge
    rw [visited] at hu
    rcases h.followed u v hu hedge with hv | ⟨t', ht', hsource, rfl⟩ | ⟨p, hp, hu'⟩
    · exact .inl (visited ▸ hv)
    · rcases mem_cons.mp (htasks ▸ ht') with rfl | ht'
      · exact top u hsource hu
      · exact .inr (.inl ⟨t', tasks ▸ ht', hsource, rfl⟩)
    · exact kept u v p hp hu'

include hsubj h htasks in
/-- A node is put off. -/
theorem of_delays (hnew : t.addr ∉ s.visited)
    (hseveral : 1 < (subj.graph.preds.getD t.addr []).length)
    (hp : Delays subj (scopeOf subj []) t b { s with tasks := rest } p) (tasks : s'.tasks = rest)
    (visited : s'.visited = s.visited) (pending : s'.pending = s.pending.insert t.addr p) :
    s'.Arrives subj.graph := by
  obtain ⟨hdue, hsource⟩ := h.due_of_delays hsubj htasks hnew hseveral hp
  have hthere : s'.pending.get? t.addr = some p := by rw [pending, OrdMap.get?_insert, if_pos rfl]
  refine h.of_rest htasks tasks visited (fun a p' hp' => ?_)
    (fun u hu _ => .inr (.inr ⟨p, hthere, hsource u hu⟩)) fun u a p' hp' hu => .inr (.inr ?_)
  · rw [pending] at hp'
    rcases OrdMap.of_get?_insert hp' with ⟨rfl, rfl⟩ | hp'
    · exact hdue
    · exact h.pending a p' hp'
  · by_cases ha : t.addr = a
    · -- Waiting for less, the node does not wait for what has come before either.
      subst ha
      refine ⟨p, hthere, ?_⟩
      cases hp with
      | first unknown => exact absurd (unknown.symm.trans hp') (by simp)
      | again known =>
        obtain rfl := Option.some.inj (known.symm.trans hp')
        exact fun hmem => hu (mem_filter.mp hmem).1
    · exact ⟨p', by rw [pending, OrdMap.get?_insert, if_neg ha]; exact hp', hu⟩

include hsubj h htasks in
/-- A node is placed. -/
theorem of_assembles (hnew : t.addr ∉ s.visited) {joint : Option Int}
    (ha : Assembles subj (scopeOf subj []) t b { s with tasks := rest } best d waiting)
    (hn : Adjoins subj.graph t.addr best (withoutGoto d best t.addr) joint more d')
    (tasks : s'.tasks = more ++ rest) (visited : s'.visited = t.addr :: s.visited)
    (pending : s'.pending = foreseen subj.graph best joint waiting) : s'.Arrives subj.graph := by
  obtain ⟨hmore, hnext⟩ := hn.tasks
  have hwaiting := fun {a : Int} {p : Pending} =>
    ha.get?_waiting (a := a) (p := p) fun p hp => (h.pending _ p hp).several
  have hkeep : ∀ {a : Int}, a ∈ s.visited → a ∈ s'.visited := fun ha => visited ▸ .tail _ ha
  have hrest : ∀ t' ∈ rest, t' ∈ s.tasks := fun t' ht' => htasks ▸ mem_cons_of_mem t ht'
  have htasks' : ∀ t' ∈ s'.tasks, t' ∈ more ∨ t' ∈ rest := fun t' ht' => mem_append.mp (tasks ▸ ht')
  refine ⟨fun t' ht' => ?_, fun t' ht' q hq => ?_, fun t' ht' hsource => ?_, fun u v hv hedge => ?_,
    fun a p hp => ?_, fun u v hu hedge => ?_⟩
  · rcases htasks' t' ht' with ht' | ht'
    · obtain ⟨c, v, hleads, -⟩ := hmore t' ht'
      exact ⟨hleads.loops, c, hleads.branch⟩
    · exact h.plain t' (hrest t' ht')
  · rcases htasks' t' ht' with ht' | ht'
    · obtain ⟨c, v, hleads, hedge⟩ := hmore t' ht'
      rw [hleads.source] at hq
      rw [visited, ← Option.some.inj hq, hleads.addr]
      exact ⟨.head _, hedge⟩
    · exact (h.sources t' (hrest t' ht') q hq).imp_left hkeep
  · rcases htasks' t' ht' with ht' | ht'
    · obtain ⟨c, v, hleads, -⟩ := hmore t' ht'
      rw [hleads.source] at hsource
      cases hsource
    · exact absurd hsource (h.source_ne_none htasks ht')
  · rcases mem_cons.mp (visited ▸ hv) with rfl | hv
    · exact hkeep (h.preds_of_assembles hsubj htasks ha hedge)
    · exact hkeep (h.above u v hv hedge)
  · rw [pending] at hp
    rcases get?_foreseen hp with hp | ⟨hjoint, hseveral, rfl⟩
    · obtain ⟨hne, hp⟩ := hwaiting.mp hp
      exact visited ▸ (h.pending a p hp).cons hne
    · -- The node that is foreseen is behind the one that is placed.
      have hmeets := hn.meets a hjoint
      refine Pending.due_waitsFor hsubj.graph ?_ hseveral
      rw [visited]
      refine not_mem_cons_of_ne_of_not_mem ?_ (h.not_mem_visited hnew hmeets)
      rintro rfl
      exact hsubj.acyclic _ hmeets
  · rcases mem_cons.mp (visited ▸ hu) with rfl | hu
    · obtain ⟨t', ht', hsource, haddr⟩ := hnext v hedge
      exact .inr (.inl ⟨t', tasks ▸ mem_append_left _ ht', hsource, haddr⟩)
    by_cases hv : v = t.addr
    · exact .inl (by rw [hv, visited]; exact (.head _))
    rcases h.followed u v hu hedge with hv' | ⟨t', ht', hsource, haddr⟩ | ⟨p, hp, hu'⟩
    · exact .inl (hkeep hv')
    · rcases mem_cons.mp (htasks ▸ ht') with rfl | ht'
      · exact absurd haddr.symm hv
      · exact .inr (.inl ⟨t', tasks ▸ mem_append_right _ ht', hsource, haddr⟩)
    · exact .inr (.inr ⟨p, pending ▸ get?_foreseen_of_get? (hwaiting.mpr ⟨hv, hp⟩), hu'⟩)

include hsubj h htasks in
/-- A step keeps the order of arrivals. -/
theorem of_outcome (hout : Outcome subj t b { s with tasks := rest } s') :
    s'.Arrives subj.graph := by
  cases hout with
  | back known _ _ _ tasks visited pending =>
    refine h.of_rest htasks tasks visited (fun a p hp => ?_)
      (fun u _ _ => .inl ?_) fun u a p hp hu => ?_
    · rw [pending] at hp
      exact h.pending a p hp
    · rw [visited]
      exact known
    · exact .inr (.inr ⟨p, pending ▸ hp, hu⟩)
  | delayed new several p delays _ tasks visited pending =>
    exact h.of_delays hsubj htasks new several delays tasks visited pending
  | placed new best d d' waiting joint more assembles adjoins _ tasks visited pending =>
    exact h.of_assembles hsubj htasks new assembles adjoins tasks visited pending

end Step

/-! ## Runs -/

theorem start (g : Graph) (labels : OrdMap Int String) (memo : PathMemo) :
    (Build.start g.entry labels memo).Arrives g where
  plain t ht := by
    rw [mem_singleton.mp ht]
    exact ⟨rfl, _, rfl⟩
  sources t ht q hq := by
    rw [mem_singleton.mp ht] at hq
    cases hq
  first t ht _ := by
    rw [mem_singleton.mp ht]
    exact ⟨rfl, rfl, rfl⟩
  above u v hv := absurd hv not_mem_nil
  pending a p hp := by cases hp
  followed u v hu := absurd hu not_mem_nil

variable {s₀ : Build}

section

variable (hsubj : subj.Loopless)
include hsubj

theorem run (h₀ : s₀.Arrives subj.graph) (hrun : Run subj s₀ s) : s.Arrives subj.graph := by
  induction hrun with
  | refl => exact h₀
  | tail _ hstep ih =>
    obtain ⟨t, rest, htasks, hplace⟩ := hstep
    obtain ⟨hloops, b, hb⟩ := ih.plain_top htasks
    exact ih.of_outcome hsubj htasks (place_outcome hsubj hb hloops hplace)

/-- No task is stuck: it follows an edge, and every edge is waited for. -/
theorem not_stuck (h : s.Arrives subj.graph) (htasks : s.tasks = t :: rest) :
    ¬ Stuck subj { s with tasks := rest } t := by
  obtain ⟨hloops, b, hb⟩ := h.plain_top htasks
  rintro ⟨-, -, b', loops, hleave, hstuck⟩
  rw [hloops, hb] at hleave
  cases hleave
  rcases hstuck with ⟨hpreds, -, -, hnot⟩ | ⟨_, s₁, -, -, e, he⟩
  · obtain ⟨q, hsource, -, hedge⟩ :=
      h.source_top hsubj htasks (ne_nil_of_length_pos (Nat.lt_trans Nat.zero_lt_one hpreds))
    refine hnot q hsource ?_
    rw [hsubj.awaited_eq]
    exact (mem_waitsFor hsubj.graph).mpr hedge
  · rw [scopeAt, hsubj.startsLoop_eq, if_neg Bool.false_ne_true] at he
    have hmeets := Graph.joinPoint_meets hsubj.graph subj.nest (scopeOf subj []) s₁.memo t.addr
    rw [he] at hmeets
    obtain ⟨q, v, -, hedge, -, hnot⟩ := hmeets
    refine hnot ?_
    rw [hsubj.awaited_eq]
    exact (mem_waitsFor hsubj.graph).mpr hedge

/-! ## The end -/

/-- At the end every node is placed: one that is not would wait for another one, and these would go
round. -/
theorem mem_visited (h : s.Arrives subj.graph) (hacc : Accounts subj s₀ s) (hdone : s.tasks = []) :
    ∀ a ∈ subj.graph.nodes.keys, a ∈ s.visited := by
  have hentry : subj.graph.entry ∈ s.visited := by
    rcases hacc.entry with hv | ⟨t, ht, -⟩ | hw | ⟨_, t, _, -, -, -, haway⟩
    · exact hv
    · rw [hdone] at ht
      cases ht
    · obtain ⟨p, hp⟩ := OrdMap.mem_keys.mp hw
      obtain ⟨q, hq⟩ := exists_mem_of_ne_nil _ (h.pending _ p hp).more
      exact absurd ((h.pending _ p hp).edges q hq) (hsubj.acyclic.not_edge_entry hsubj.graph q)
    · rw [hsubj.turnsAway_eq] at haway
      cases haway
  -- Of an edge out of a node that is placed nothing is left but what is put off.
  have hput : ∀ {u v : Int}, u ∈ s.visited → subj.graph.Edge u v → v ∉ s.visited →
      ∃ p, s.pending.get? v = some p ∧ u ∉ p.awaited := by
    intro u v hu hedge hv
    rcases h.followed u v hu hedge with hv' | ⟨t, ht, -⟩ | hp
    · exact absurd hv' hv
    · rw [hdone] at ht
      cases ht
    · exact hp
  by_contra! hnot
  obtain ⟨a₀, ha₀, hnew₀⟩ := hnot
  let Left := { a // a ∈ subj.graph.nodes.keys ∧ a ∉ s.visited }
  have : Nonempty Left := ⟨⟨a₀, ha₀, hnew₀⟩⟩
  have : Finite Left := Set.Finite.subset (finite_toSet subj.graph.nodes.keys) fun a ha => ha.1
  have hbefore : ∀ v : Left, ∃ u : Left, subj.graph.Edge u.1 v.1 := by
    rintro ⟨v, hv, hnew⟩
    obtain ⟨u, hu⟩ : ∃ u, subj.graph.Edge u v := by
      rcases Relation.ReflTransGen.cases_tail (hsubj.graph.reachable v hv) with rfl | ⟨u, -, hu⟩
      · exact absurd hentry hnew
      · exact ⟨u, hu⟩
    by_cases hvis : u ∈ s.visited
    · -- The node is put off by then, and what it waits for has not come.
      obtain ⟨p, hp, -⟩ := hput hvis hu hnew
      obtain ⟨q, hq⟩ := exists_mem_of_ne_nil _ (h.pending v p hp).more
      have hedge := (h.pending v p hp).edges q hq
      refine ⟨⟨q, Graph.mem_nodes_of_edge hsubj.graph hedge, fun hqvis => ?_⟩, hedge⟩
      obtain ⟨p', hp', hnot⟩ := hput hqvis hedge hnew
      rw [hp] at hp'
      rw [Option.some.inj hp'] at hq
      exact hnot hq
    · exact ⟨⟨u, Graph.mem_nodes_of_edge hsubj.graph hu, hvis⟩, hu⟩
  obtain ⟨a, hcycle⟩ := Exploration.exists_transGen_self hbefore
  exact hsubj.acyclic a.1 (hcycle.lift Subtype.val fun _ _ hab => hab)

/-- At the end nothing is put off. -/
theorem pending_eq_none (h : s.Arrives subj.graph) (hacc : Accounts subj s₀ s)
    (hdone : s.tasks = []) (a : Int) : s.pending.get? a = none := by
  cases hp : s.pending.get? a with
  | none => rfl
  | some p =>
    have hdue := h.pending a p hp
    obtain ⟨q, hq⟩ := exists_mem_of_ne_nil _ hdue.more
    have hnode := hsubj.graph.closed q a (hdue.edges q hq)
    exact absurd (h.mem_visited hsubj hacc hdone a hnode) hdue.new

end

end Build.Arrives

/-- A graph without cycles is structured. -/
theorem Structuring.build_returns {subj : Subject} (hsubj : subj.Loopless) (hsound : subj.Sound)
    (labels : OrdMap Int String) (memo : PathMemo) :
    ∃ s, build subj (Build.start subj.graph.entry labels memo) = .ok () s := by
  cases hbuild : build subj (Build.start subj.graph.entry labels memo) with
  | ok r s => exact ⟨s, rfl⟩
  | error e s =>
    obtain ⟨s', t, rest, hrun, htasks, hstuck⟩ :=
      (build_fails_iff hsound labels memo).mp ⟨e, s, hbuild⟩
    exact absurd hstuck (((Build.Arrives.start subj.graph labels memo).run hsubj hrun).not_stuck
      hsubj htasks)

end Decompiler
