import Decompiler.Flow.Blocks
import Decompiler.Proofs.Discovery
/-!
# Joining blocks keeps a graph well formed

One join is opened once (`joinTo?_eq_ok`): it appends a node that is no jump to its only
predecessor, which is no jump either and has no other successor. The successors and predecessors
after a join follow from that, and with them that the graph stays well formed and classified.
`blocks_wellFormed` runs this over all nodes; it also says that joining never fails on a graph that
discovery gives.
-/

namespace Decompiler.Graph

open List OrdMap

variable {arch : Arch} {g : Graph} {addr new : Int}

/-! ## One join -/

/-- The node at `addr` can be appended to the one at `pred`. -/
structure Joinable (arch : Arch) (g : Graph) (pred addr : Int) : Prop where
  ne_entry : addr ≠ g.entry
  ne : addr ≠ pred
  node : ∃ i rest, g.nodes.get? addr = some (i :: rest) ∧ arch.isJump i = .ok false
  predNode : ∃ j rest, g.nodes.get? pred = some (j :: rest) ∧ arch.isJump j = .ok false
  preds : g.preds.get? addr = some [pred]
  succs : g.succs.get? pred = some [addr]

/-- A node that is its own only predecessor would not be reachable. -/
theorem ne_of_preds (h : g.WellFormed) {pred : Int} (hmem : addr ∈ g.nodes.keys)
    (hentry : addr ≠ g.entry) (hpreds : g.preds.get? addr = some [pred]) : addr ≠ pred := by
  rintro rfl
  have hall : ∀ a, g.Reachable a → a ≠ addr := by
    intro a ha
    induction ha with
    | refl => exact Ne.symm hentry
    | tail _ hbc ih =>
      rintro rfl
      exact ih (mem_singleton.mp ((mem_iff_edge h hpreds).mpr hbc))
  exact hall addr (h.reachable addr hmem) rfl

theorem joinTo?_eq_ok (h : g.WellFormed) (hc : g.Classified arch) (hmem : addr ∈ g.nodes.keys) :
    ∃ pred?, g.joinTo? arch addr = .ok pred? ∧ ∀ pred, pred? = some pred →
      Joinable arch g pred addr := by
  obtain ⟨l, hl⟩ := mem_keys.mp hmem
  obtain ⟨i, rest, rfl, -⟩ := h.heads addr l hl
  obtain ⟨b, hb⟩ := hc.jump addr i rest hl
  simp only [joinTo?, hl, hb, bind, Except.bind, pure, Except.pure]
  cases b with
  | true => exact ⟨none, rfl, by simp⟩
  | false =>
    by_cases he : addr = g.entry
    · exact ⟨none, by simp [he], by simp⟩
    · simp only [Bool.false_eq_true, if_false, he]
      rcases hp : g.preds.get? addr with _ | ⟨_ | ⟨pred, _ | ⟨q, more⟩⟩⟩
      · exact ⟨none, rfl, by simp⟩
      · exact ⟨none, rfl, by simp⟩
      · have hedge : g.Edge pred addr := (mem_iff_edge h hp).mp (mem_singleton.mpr rfl)
        obtain ⟨lp, hlp, hin⟩ := exists_of_mem_getD hedge
        obtain ⟨lj, hlj⟩ := mem_keys.mp (h.succs pred lp hlp).1
        obtain ⟨j, restj, rfl, -⟩ := h.heads pred lj hlj
        obtain ⟨c, hcj⟩ := hc.jump pred j restj hlj
        simp only [hlj, hcj]
        cases c with
        | true => exact ⟨none, rfl, by simp⟩
        | false =>
          rcases lp with _ | ⟨q, _ | ⟨q', more⟩⟩
          · cases hin
          · obtain rfl : addr = q := mem_singleton.mp hin
            refine ⟨some pred, by simp [hlp], fun pred' hpred => ?_⟩
            obtain rfl : pred = pred' := Option.some.inj hpred
            exact ⟨he, ne_of_preds h hmem he hp, ⟨i, rest, hl, hb⟩, ⟨j, restj, hlj, hcj⟩, hp, hlp⟩
          · exact ⟨none, by simp [hlp], by simp⟩
      · exact ⟨none, rfl, by simp⟩

/-! ## The graph after a join -/

variable {old a : Int} {l : List Int}

theorem replaceFirst_ne_nil (h : l ≠ []) : replaceFirst old new l ≠ [] := by
  cases l with
  | nil => exact (h rfl).elim
  | cons a rest =>
    unfold replaceFirst
    split <;> simp

theorem replaceFirst_of_not_mem (h : old ∉ l) : replaceFirst old new l = l := by
  induction l with
  | nil => rfl
  | cons a rest ih =>
    simp only [mem_cons, not_or] at h
    rw [replaceFirst, if_neg (Ne.symm h.1), ih h.2]

theorem count_replaceFirst (h : old ∈ l) (new a : Int) :
    (replaceFirst old new l).count a + [old].count a = l.count a + [new].count a := by
  induction l with
  | nil => cases h
  | cons b rest ih =>
    unfold replaceFirst
    split
    · rename_i hb
      simp only [hb, count_cons, count_nil]
      omega
    · rename_i hb
      have hrest : old ∈ rest := (mem_cons.mp h).resolve_left (Ne.symm hb)
      have hcount := ih hrest
      simp only [count_cons, count_nil] at hcount ⊢
      omega

variable {pred addr : Int}

section

variable (hj : Joinable arch g pred addr)
include hj

theorem Joinable.next_pred : g.next pred = [addr] := getD_of_get? hj.succs

theorem Joinable.eq_pred (ha : a ∈ g.preds.getD addr []) : a = pred := by
  rw [getD_of_get? hj.preds] at ha
  exact mem_singleton.mp ha

/-- What is appended has at most one successor, since only jumps have two. -/
theorem Joinable.length_next (hc : g.Classified arch) : (g.next addr).length ≤ 1 := by
  obtain ⟨i, rest, hi, hjump⟩ := hj.node
  by_contra hlen
  have htrue := Arch.isJump_of_cond (hc.fork addr i rest hi (by omega))
  rw [hjump] at htrue
  cases htrue

end

theorem join_nodes (a : Int) : (g.join pred addr).nodes.get? a =
    if a = addr then none
    else if a = pred then some (g.nodes.getD pred [] ++ g.nodes.getD addr [])
      else g.nodes.get? a := by
  simp only [join, OrdMap.get?_erase, OrdMap.get?_insert, eq_comm]

theorem join_keys (h : g.WellFormed) (hj : Joinable arch g pred addr) :
    (g.join pred addr).nodes.keys = g.nodes.keys.filter (· ≠ addr) := by
  have hp : pred ∈ g.nodes.keys := (h.succs pred _ hj.succs).1
  simp only [join, keys_erase, keys_insert, if_pos hp]

theorem join_succs (a : Int) : (g.join pred addr).succs.get? a =
    if a = addr then none else if a = pred then g.succs.get? addr else g.succs.get? a := by
  cases hs : g.succs.get? addr with
  | some l => simp only [join, hs, OrdMap.get?_erase, OrdMap.get?_insert, eq_comm]
  | none =>
    simp only [join, hs, OrdMap.get?_erase]
    by_cases ha : a = addr
    · simp [ha, hs]
    · by_cases hp : a = pred
      · simp [hp]
      · simp [ha, hp, Ne.symm hp]

theorem join_next (a : Int) : (g.join pred addr).next a =
    if a = addr then [] else if a = pred then g.next addr else g.next a := by
  simp only [next, OrdMap.getD, join_succs]
  split
  · rfl
  · split <;> rfl

theorem join_preds (b : Int) : (g.join pred addr).preds.get? b =
    if b = addr then none else (g.preds.get? b).map (replaceFirst addr pred) := by
  simp only [join, OrdMap.get?_map, OrdMap.get?_erase]
  by_cases hb : b = addr
  · simp [hb]
  · simp [hb, Ne.symm hb]

/-! ## Well-formedness after a join -/

section

variable (h : g.WellFormed) (hj : Joinable arch g pred addr)
include h hj

/-- Nothing but its predecessor leads to the node that is appended. -/
theorem Joinable.not_edge (ha : a ≠ pred) : ¬ g.Edge a addr :=
  fun he => ha (hj.eq_pred ((mem_preds_iff h).mpr he))

theorem join_edge {b : Int} :
    (g.join pred addr).Edge a b ↔ b ≠ addr ∧
      ((a = pred ∧ g.Edge addr b) ∨ (a ≠ addr ∧ g.Edge a b)) := by
  simp only [Edge, join_next]
  constructor
  · intro hb
    split at hb
    · cases hb
    · rename_i ha
      split at hb
      · rename_i hp
        refine ⟨?_, .inl ⟨hp, hb⟩⟩
        rintro rfl
        exact hj.not_edge h hj.ne hb
      · rename_i hp
        refine ⟨?_, .inr ⟨ha, hb⟩⟩
        rintro rfl
        exact hj.not_edge h hp hb
  · rintro ⟨hb, ⟨rfl, he⟩ | ⟨ha, he⟩⟩
    · rwa [if_neg (Ne.symm hj.ne), if_pos rfl]
    · rw [if_neg ha]
      split
      · rename_i hp
        rw [hp, hj.next_pred] at he
        exact (hb (mem_singleton.mp he)).elim
      · exact he

theorem join_converse (hc : g.Classified arch) (a b : Int) :
    ((g.join pred addr).preds.getD b []).count a = ((g.join pred addr).next a).count b := by
  by_cases hb : b = addr
  · have hnone : (g.join pred addr).preds.getD b [] = [] := by simp [OrdMap.getD, join_preds, hb]
    have hnot : b ∉ (g.join pred addr).next a := fun he => ((join_edge h hj).mp he).1 hb
    rw [hnone, count_nil, count_eq_zero_of_not_mem hnot]
  · have hpreds : (g.join pred addr).preds.getD b [] =
        replaceFirst addr pred (g.preds.getD b []) := by
      simp only [OrdMap.getD, join_preds, if_neg hb]
      cases g.preds.get? b <;> rfl
    have haddr := h.converse addr b
    have hpred : (g.preds.getD b []).count pred = 0 := by
      rw [h.converse, hj.next_pred]
      exact count_eq_zero_of_not_mem (by simpa using hb)
    rw [hpreds, join_next]
    by_cases hmem : addr ∈ g.preds.getD b []
    · have hone : (g.next addr).count b = 1 := by
        have hpos := count_pos_iff.mpr hmem
        have hle := count_le_length (a := b) (l := g.next addr)
        have := hj.length_next hc
        omega
      have hcount := count_replaceFirst hmem pred a
      split
      · rename_i ha
        subst ha
        rw [haddr, hone, count_singleton_self, count_singleton,
          if_neg (by simpa using Ne.symm hj.ne)] at hcount
        simp only [count_nil]
        omega
      · rename_i ha
        split
        · rename_i hp
          subst hp
          rw [hpred, count_singleton_self, count_singleton, if_neg (by simpa using hj.ne)] at hcount
          omega
        · rename_i hp
          rw [h.converse, count_singleton, count_singleton, if_neg (by simpa using Ne.symm ha),
            if_neg (by simpa using Ne.symm hp)] at hcount
          omega
    · have hzero : (g.next addr).count b = 0 := by rw [← haddr]; exact count_eq_zero_of_not_mem hmem
      rw [replaceFirst_of_not_mem hmem, h.converse]
      split
      · rename_i ha
        rw [ha, hzero, count_nil]
      · split
        · rename_i hp
          rw [hp, hzero, ← h.converse, hpred]
        · rfl

/-- Every path stays one if the appended node is read as the one it is appended to. -/
theorem join_reachable (ha : g.Reachable a) :
    (g.join pred addr).Reachable (if a = addr then pred else a) := by
  induction ha with
  | refl =>
    rw [if_neg (Ne.symm hj.ne_entry)]
    exact Relation.ReflTransGen.refl
  | @tail b c _ hbc ih =>
    by_cases hc : c = addr
    · obtain rfl : b = pred := by
        by_contra hb
        exact hj.not_edge h hb (hc ▸ hbc)
      rw [if_pos hc]
      rwa [if_neg (Ne.symm hj.ne)] at ih
    · rw [if_neg hc]
      refine ih.tail ((join_edge h hj).mpr ⟨hc, ?_⟩)
      by_cases hb : b = addr
      · exact .inl ⟨if_pos hb, hb ▸ hbc⟩
      · rw [if_neg hb]
        exact .inr ⟨hb, hbc⟩

theorem join_wellFormed (hc : g.Classified arch) : (g.join pred addr).WellFormed := by
  have hkeys : ∀ a, a ∈ (g.join pred addr).nodes.keys ↔ a ∈ g.nodes.keys ∧ a ≠ addr := by
    intro a
    rw [join_keys h hj]
    simp
  have hpred : pred ∈ g.nodes.keys := (h.succs pred _ hj.succs).1
  refine ⟨?_, ?_, ?_, ?_, ?_, join_converse h hj hc, ?_, ?_⟩
  · intro a l hl
    rw [join_nodes] at hl
    split at hl
    · cases hl
    · split at hl
      · rename_i hp
        obtain ⟨j, rest, hnode, -⟩ := hj.predNode
        obtain ⟨j', rest', hcons, haddr⟩ := h.heads pred _ hnode
        rw [getD_of_get? hnode] at hl
        refine ⟨j, rest ++ g.nodes.getD addr [], (Option.some.inj hl).symm, ?_⟩
        rw [(cons.inj hcons).1, haddr, hp]
      · exact h.heads a l hl
  · rw [join_keys h hj]
    exact h.nodup.filter _
  · exact (hkeys _).mpr ⟨h.entry_mem, Ne.symm hj.ne_entry⟩
  · intro a l hl
    rw [join_succs] at hl
    split at hl
    · cases hl
    · rename_i ha
      split at hl
      · rename_i hp
        rw [hp] at ha ⊢
        exact ⟨(hkeys pred).mpr ⟨hpred, ha⟩, (h.succs addr l hl).2⟩
      · obtain ⟨hmem, hrest⟩ := h.succs a l hl
        exact ⟨(hkeys a).mpr ⟨hmem, ha⟩, hrest⟩
  · intro a b hab
    obtain ⟨hb, ⟨-, he⟩ | ⟨-, he⟩⟩ := (join_edge h hj).mp hab
    · exact (hkeys b).mpr ⟨h.closed addr b he, hb⟩
    · exact (hkeys b).mpr ⟨h.closed a b he, hb⟩
  · intro b l hl
    rw [join_preds] at hl
    split at hl
    · cases hl
    · obtain ⟨l', hl', rfl⟩ := Option.map_eq_some_iff.mp hl
      exact replaceFirst_ne_nil (h.preds b l' hl')
  · intro a ha
    obtain ⟨hmem, hne⟩ := (hkeys a).mp ha
    have hreach := join_reachable h hj (h.reachable a hmem)
    rwa [if_neg hne] at hreach

end

theorem join_classified (hc : g.Classified arch) (hj : Joinable arch g pred addr) :
    (g.join pred addr).Classified arch := by
  -- The node that was appended to keeps its first instruction, and the others are as they were.
  have hhead : ∀ a i rest, (g.join pred addr).nodes.get? a = some (i :: rest) →
      a ≠ addr ∧ ∃ rest', g.nodes.get? a = some (i :: rest') := by
    intro a i rest hl
    rw [join_nodes] at hl
    split at hl
    · cases hl
    · rename_i ha
      refine ⟨ha, ?_⟩
      split at hl
      · rename_i hp
        obtain ⟨j, restj, hnode, -⟩ := hj.predNode
        rw [getD_of_get? hnode] at hl
        rw [hp, ← (cons.inj (Option.some.inj hl)).1]
        exact ⟨restj, hnode⟩
      · exact ⟨rest, hl⟩
  refine ⟨fun a i rest hl => ?_, fun a i rest hl hlen => ?_, fun a i rest hl => ?_⟩
  · obtain ⟨-, rest', hl'⟩ := hhead a i rest hl
    exact hc.jump a i rest' hl'
  · obtain ⟨ha, rest', hl'⟩ := hhead a i rest hl
    rw [join_next, if_neg ha] at hlen
    split at hlen
    · have := hj.length_next hc
      omega
    · exact hc.fork a i rest' hl' hlen
  · obtain ⟨-, rest', hl'⟩ := hhead a i rest hl
    exact hc.uncond a i rest' hl'

/-! ## All joins -/

/-- What joining keeps: the entry and the lists of jumps. -/
structure SameJumps (g g' : Graph) : Prop where
  entry : g'.entry = g.entry
  cond : g'.condJumps = g.condJumps
  uncond : g'.uncondJumps = g.uncondJumps

/-- A node that can be appended is. -/
theorem joinTo?_of_joinable (hj : Joinable arch g pred addr) :
    g.joinTo? arch addr = .ok (some pred) := by
  obtain ⟨i, rest, hi, hjump⟩ := hj.node
  obtain ⟨j, restj, hpred, hjumpj⟩ := hj.predNode
  simp [joinTo?, hi, hjump, hj.ne_entry, hj.preds, hpred, hjumpj, hj.succs, bind, Except.bind, pure,
    Except.pure]

/-- Joining does not fail, and the graph stays well formed. What is kept by passing over a node that
cannot be appended, and by appending one that can, holds when all nodes of a list have been dealt
with. -/
theorem joinAll_induction {P : List Int → Graph → Prop}
    (hskip : ∀ {g : Graph} {addr : Int} {rest : List Int}, (∀ u, ¬ Joinable arch g u addr) →
      P (addr :: rest) g → P rest g)
    (hjoin : ∀ {g : Graph} {pred addr : Int} {rest : List Int}, g.WellFormed →
      Joinable arch g pred addr → P (addr :: rest) g → P rest (g.join pred addr)) :
    ∀ (todo : List Int) {g : Graph}, g.WellFormed → g.Classified arch → todo.Nodup →
      todo ⊆ g.nodes.keys → P todo g →
      ∃ g', g.joinAll arch todo = .ok g' ∧ g'.WellFormed ∧ g'.Classified arch ∧ P [] g' := by
  intro todo
  induction todo with
  | nil => intro g h hc _ _ hP; exact ⟨g, rfl, h, hc, hP⟩
  | cons addr rest ih =>
    intro g h hc hnodup hsub hP
    obtain ⟨hnot, hrest⟩ := nodup_cons.mp hnodup
    obtain ⟨hmem, hsub⟩ := cons_subset.mp hsub
    obtain ⟨pred?, hto, hcan⟩ := joinTo?_eq_ok h hc hmem
    simp only [joinAll, bind, Except.bind, hto]
    cases pred? with
    | none =>
      refine ih h hc hrest hsub (hskip (fun u hu => ?_) hP)
      rw [joinTo?_of_joinable hu] at hto
      cases hto
    | some pred =>
      have hj := hcan pred rfl
      refine ih (join_wellFormed h hj hc) (join_classified hc hj) hrest (fun a ha => ?_)
        (hjoin h hj hP)
      rw [join_keys h hj, mem_filter]
      have hne : a ≠ addr := fun he => hnot (he ▸ ha)
      exact ⟨hsub ha, by simpa using hne⟩

/-- Joining blocks never fails on a graph that discovery gives, and gives a graph of the same
kind. -/
theorem blocks_wellFormed (h : g.WellFormed) (hc : g.Classified arch) :
    ∃ g', g.blocks arch = .ok g' ∧ g'.WellFormed ∧ g'.Classified arch ∧ SameJumps g g' :=
  joinAll_induction (P := fun _ g' => SameJumps g g') (fun _ hsame => hsame)
    (fun _ _ hsame => ⟨hsame.entry, hsame.cond, hsame.uncond⟩) g.nodes.keys h hc h.nodup
    (List.Subset.refl _) ⟨rfl, rfl, rfl⟩

/-- What is known of a function in blocks. -/
theorem wellFormed_of_blocks {p p' : Program} (hp : p.Keyed) {entry : Int} {g₀ : Graph}
    (hfound : discover entry p = .ok (some g₀) p') (hblocks : g₀.blocks p.arch = .ok g) :
    g.WellFormed ∧ g.Classified p.arch ∧ g.entry = entry := by
  obtain ⟨hwf₀, hclass₀, hentry₀⟩ := discover_wellFormed hp hfound
  obtain ⟨g', hg', hwf, hclass, hsame⟩ := blocks_wellFormed hwf₀ hclass₀
  obtain rfl : g = g' := Except.ok.inj (hblocks.symm.trans hg')
  exact ⟨hwf, hclass, hsame.entry.trans hentry₀⟩

end Decompiler.Graph
