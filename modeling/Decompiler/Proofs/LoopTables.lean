import Decompiler.Proofs.SearchParts
import Decompiler.Proofs.WaysBack
/-!
# The tables of loops

A loop is found before it is recorded, and it is recorded once, after all that are inside it. The
tables stay sound when a search finds loops (`LoopTables.Sound.detects`) and when one of them is
recorded (`LoopTables.Sound.records`). What is found and not yet recorded is booked as due
(`Exploration.Booked`).
-/

namespace Decompiler

open List OrdMap

/-- Nodes that go round: the start is among them and has predecessors, and each leads on to one of
them. -/
structure Graph.GoesRound (g : Graph) (start : Int) (nodes : List Int) : Prop where
  start_mem : start ∈ nodes
  start_preds : start ∈ g.preds.keys
  next : ∀ x ∈ nodes, ∃ y ∈ nodes, g.Edge x y

theorem mem_unite {α : Type} [DecidableEq α] {a b : List α} {x : α} :
    x ∈ unite a b ↔ x ∈ a ∨ x ∈ b := by
  induction b with
  | nil => simp [unite]
  | cons y rest ih =>
    have hcons : unite a (y :: rest) = (unite a rest).insert y := rfl
    rw [hcons, mem_insert_iff, mem_cons, ih]
    tauto

namespace LoopTables

/-- The tables as they come about: each loop is found once and recorded at most once, its nodes go
round, a loop inside another was recorded before it, and a loop holds its own nodes and all of the
loops inside it. -/
structure Sound (g : Graph) (t : LoopTables) : Prop where
  own_nodup : t.own.keys.Nodup
  own_round : ∀ k nodes, t.own.get? k = some nodes → g.GoesRound k.start nodes
  all_own : ∀ k ∈ t.all.keys, k ∈ t.own.keys
  all_nodup : t.all.keys.Nodup
  all_round : ∀ k nodes, t.all.get? k = some nodes → g.GoesRound k.start nodes
  inner_keys : t.inner.keys = t.all.keys
  inner_before : ∀ k other, other ∈ t.inner.getD k [] →
    other ∈ t.all.keys ∧ t.all.keys.idxOf other < t.all.keys.idxOf k
  converse : ∀ k other, k ∈ t.outer.getD other [] ↔ other ∈ t.inner.getD k []
  gathers : ∀ k ∈ t.all.keys, ∀ a, a ∈ t.all.getD k [] ↔
    a ∈ t.own.getD k [] ∨ ∃ k' ∈ t.inner.getD k [], a ∈ t.all.getD k' []

theorem Sound.empty (g : Graph) : LoopTables.empty.Sound g where
  own_nodup := nodup_nil
  own_round k nodes h := by cases h
  all_own k h := by cases h
  all_nodup := nodup_nil
  all_round k nodes h := by cases h
  inner_keys := rfl
  inner_before k other h := by cases h
  converse k other := by
    constructor
    · intro h; cases h
    · intro h; cases h
  gathers k h := by cases h

variable {g : Graph} {t t' : LoopTables}

/-- A search that tries nodes with predecessors. -/
theorem Sound.detects {f : Exploration.Frame} {tried found : List Int} (h : t.Sound g)
    (hd : Exploration.Detects g f tried t found t') (htried : ∀ a ∈ tried, a ∈ g.preds.keys) :
    t'.Sound g := by
  rw [hd.rest]
  refine { h with
    own_nodup := hd.own_nodup h.own_nodup
    own_round := fun k nodes hk => ?_
    all_own := fun k hk => (hd.mem_own k).mpr (.inl (h.all_own k hk))
    gathers := fun k hk a => ?_ }
  swap
  · have hkept : t'.own.getD k [] = t.own.getD k [] := by
      rw [OrdMap.getD, hd.kept k fun hout hin => (hd.fresh k.start hin).1 (hout ▸ h.all_own k hk),
        OrdMap.getD]
    show a ∈ t.all.getD k [] ↔ a ∈ t'.own.getD k [] ∨ _
    rw [hkept]
    exact h.gathers k hk a
  rcases hd.get?_own hk with ⟨-, hfound, rfl⟩ | hk
  · obtain ⟨x, hx⟩ := exists_mem_of_ne_nil _ (hd.round k.start hfound)
    refine ⟨(Edges.exists_next_of_mem_paths hx).1, htried _ (hd.sub _ hfound), fun y hy => ?_⟩
    obtain ⟨-, z, hz, hon⟩ := Edges.exists_next_of_mem_paths hy
    exact ⟨z, hon, hz⟩
  · exact h.own_round k nodes hk

/-- One more loop is recorded, with the loops `inside` taken into it. -/
structure Records (t : LoopTables) (k : LoopId) (inside : List LoopId) (t' : LoopTables) :
    Prop where
  own : t'.own = t.own
  keys : t'.all.keys = t.all.keys ++ [k]
  inner_keys : t'.inner.keys = t.inner.keys ++ [k]
  all : ∀ k', k' ≠ k → t'.all.get? k' = t.all.get? k'
  nodes : ∀ a, a ∈ t'.all.getD k [] ↔ a ∈ t.own.getD k [] ∨ ∃ k' ∈ inside, a ∈ t.all.getD k' []
  inner : ∀ k', t'.inner.getD k' [] = if k = k' then inside else t.inner.getD k' []
  outer : ∀ k' other, k' ∈ t'.outer.getD other [] ↔ k' ∈ t.outer.getD other [] ∨ k' = k ∧
    other ∈ inside
  mem : ∀ other ∈ inside, other ∈ t.all.keys

variable {k : LoopId} {inside : List LoopId}

/-- Opening the record of a loop: nothing is inside it yet. -/
theorem Records.opened (h : t.Sound g) (hall : k ∉ t.all.keys) :
    Records t k []
      { t with all := t.all.insert k (t.own.getD k []), inner := t.inner.insert k [] } where
  own := rfl
  keys := keys_insert_of_not_mem hall _
  inner_keys := keys_insert_of_not_mem (h.inner_keys ▸ hall) _
  all k' hne := OrdMap.get?_insert_of_ne _ hne.symm _
  nodes a := by simp [getD_insert]
  inner k' := getD_insert _ _ _ _ _
  outer k' other := by simp
  mem other ho := by cases ho

/-- Taking a recorded loop into the one whose record is open. -/
theorem Records.takeIn (h : Records t k inside t') {other : LoopId} {nodes : List Int}
    (hne : other ≠ k) (hother : t'.all.get? other = some nodes) :
    Records t k (inside.insert other)
      { t' with
        outer := t'.outer.upsert other [] (List.insert k)
        inner := t'.inner.upsert k [] (List.insert other)
        all := t'.all.insert k (unite (t'.all.getD k []) nodes) } := by
  have hall : k ∈ t'.all.keys := by simp [h.keys]
  have hinner : k ∈ t'.inner.keys := by simp [h.inner_keys]
  have hget : t.all.get? other = some nodes := (h.all other hne).symm.trans hother
  refine ⟨h.own, ?_, ?_, fun k' hk' => ?_, fun a => ?_, fun k' => ?_, fun k' o => ?_,
    fun o ho => ?_⟩
  · rw [keys_insert, if_pos hall, h.keys]
  · rw [OrdMap.upsert, keys_insert, if_pos hinner, h.inner_keys]
  · rw [OrdMap.get?_insert_of_ne _ hk'.symm, h.all k' hk']
  · rw [getD_insert, if_pos rfl, mem_unite, h.nodes, or_assoc]
    simp only [mem_insert_iff, exists_eq_or_imp, getD_of_get? hget]
    exact or_congr_right or_comm
  · rw [getD_upsert, h.inner k, h.inner k']
    split <;> simp
  · rw [getD_upsert, mem_insert_iff]
    split
    · rename_i heq
      obtain rfl := heq
      rw [mem_insert_iff, h.outer]
      tauto
    · rename_i hno
      rw [h.outer, or_iff_right (Ne.symm hno)]
  · rcases mem_insert_iff.mp ho with rfl | ho
    · exact mem_keys_of_get? hget
    · exact h.mem o ho

/-- A loop that was found is recorded after those inside it. -/
theorem Sound.records (h : t.Sound g) (hr : Records t k inside t') (hown : k ∈ t.own.keys)
    (hall : k ∉ t.all.keys) : t'.Sound g := by
  have hinner : t.inner.getD k [] = [] := getD_of_not_mem (h.inner_keys ▸ hall)
  -- What was recorded before is not the new loop, and stays as it is.
  have hsame : ∀ k' ∈ t.all.keys, t'.all.getD k' [] = t.all.getD k' [] ∧ ¬ k = k' := by
    intro k' hk'
    have hne : k' ≠ k := fun heq => hall (heq ▸ hk')
    exact ⟨by rw [OrdMap.getD, hr.all k' hne, OrdMap.getD], hne.symm⟩
  have hbefore : ∀ k' other, other ∈ t.inner.getD k' [] → k' ∈ t.all.keys := by
    intro k' other hother
    obtain ⟨l, hl, -⟩ := exists_of_mem_getD hother
    exact h.inner_keys ▸ mem_keys_of_get? hl
  refine ⟨hr.own ▸ h.own_nodup, hr.own ▸ h.own_round, fun k' hk' => ?_, ?_,
    fun k' nodes hk' => ?_, ?_, fun k' other ho => ?_, fun k' other => ?_, fun k' hk' a => ?_⟩
  · rw [hr.keys, mem_append, mem_singleton] at hk'
    rw [hr.own]
    rcases hk' with hk' | rfl
    · exact h.all_own k' hk'
    · exact hown
  · rw [hr.keys]
    exact h.all_nodup.append (nodup_singleton k) (disjoint_singleton.mpr hall)
  · by_cases heq : k' = k
    · subst heq
      obtain ⟨nodes', hnodes'⟩ := mem_keys.mp hown
      have hround := h.own_round k' nodes' hnodes'
      have hmem := hr.nodes
      rw [getD_of_get? hk', getD_of_get? hnodes'] at hmem
      refine ⟨(hmem _).mpr (.inl hround.start_mem), hround.start_preds, fun x hx => ?_⟩
      rcases (hmem x).mp hx with hx | ⟨other, ho, hx⟩
      · obtain ⟨y, hy, hedge⟩ := hround.next x hx
        exact ⟨y, (hmem y).mpr (.inl hy), hedge⟩
      · obtain ⟨l, hl⟩ := mem_keys.mp (hr.mem other ho)
        rw [getD_of_get? hl] at hx
        obtain ⟨y, hy, hedge⟩ := (h.all_round other l hl).next x hx
        exact ⟨y, (hmem y).mpr (.inr ⟨other, ho, getD_of_get? hl ▸ hy⟩), hedge⟩
    · exact h.all_round k' nodes (hr.all k' heq ▸ hk')
  · rw [hr.inner_keys, hr.keys, h.inner_keys]
  · rw [hr.inner] at ho
    rw [hr.keys]
    split at ho
    · rename_i heq
      have hmem := hr.mem other ho
      rw [← heq, idxOf_append_of_mem hmem, idxOf_append_of_notMem hall]
      exact ⟨mem_append_left _ hmem, Nat.lt_add_right _ (idxOf_lt_length_iff.mpr hmem)⟩
    · obtain ⟨hmem, hlt⟩ := h.inner_before k' other ho
      rw [idxOf_append_of_mem hmem, idxOf_append_of_mem (hbefore k' other ho)]
      exact ⟨mem_append_left _ hmem, hlt⟩
  · rw [hr.outer, hr.inner, h.converse]
    split
    · rename_i heq
      simp [← heq, hinner]
    · rename_i hne
      exact or_iff_left fun hk' => hne hk'.1.symm
  · rw [hr.inner, hr.own]
    rw [hr.keys, mem_append, mem_singleton] at hk'
    rcases hk' with hk' | rfl
    · obtain ⟨hget, hne⟩ := hsame k' hk'
      rw [hget, if_neg hne, h.gathers k' hk' a]
      refine or_congr_right (exists_congr fun o => and_congr_right fun ho => ?_)
      rw [(hsame o (h.inner_before k' o ho).1).1]
    · rw [if_pos rfl, hr.nodes]
      refine or_congr_right (exists_congr fun o => and_congr_right fun ho => ?_)
      rw [(hsame o (hr.mem o ho)).1]

end LoopTables

namespace Exploration

variable {g : Graph} {entry : Int} {t t' : LoopTables} {starts : List Int} {k : LoopId}

/-- The tables while the loops `due` are found and not yet recorded. -/
structure Booked (g : Graph) (due : List LoopId) (t : LoopTables) : Prop where
  sound : t.Sound g
  keys : (t.all.keys ++ due).Perm t.own.keys

variable {due : List LoopId}

theorem Booked.perm {due' : List LoopId} (h : Booked g due t) (hperm : due.Perm due') :
    Booked g due' t :=
  ⟨h.sound, (hperm.append_left _).symm.trans h.keys⟩

theorem Booked.mem_own (h : Booked g due t) (hk : k ∈ due) : k ∈ t.own.keys :=
  h.keys.subset (mem_append_right _ hk)

theorem Booked.nodup (h : Booked g due t) : (t.all.keys ++ due).Nodup :=
  h.keys.nodup_iff.mpr h.sound.own_nodup

/-- Each loop that a level has found is due once, so that to record them as a set is to record them
all. -/
theorem Booked.distinct (h : Booked g (starts.map (LoopId.mk entry) ++ due) t) :
    Booked g ((distinct starts).map (LoopId.mk entry) ++ due) t := by
  have hnodup : starts.Nodup := .of_map (LoopId.mk entry) h.nodup.of_append_right.of_append_left
  have hperm := (perm_ext_iff_of_nodup (nodup_distinct starts) hnodup).mpr fun _ => mem_distinct
  exact h.perm ((hperm.symm.map _).append_right _)

/-- The loops that a search finds are due. -/
theorem Booked.finds {f : Frame} {tried found : List Int} (h : Booked g due t) (hs : t'.Sound g)
    (hd : Detects g f tried t found t') : Booked g (found.map (LoopId.mk f.entry) ++ due) t' := by
  refine ⟨hs, ?_⟩
  have hnew : (found.map (LoopId.mk f.entry) ++ t.own.keys).Perm t'.own.keys := by
    refine (perm_ext_iff_of_nodup (List.Nodup.append ?_ h.sound.own_nodup fun k hk hin => ?_)
      hs.own_nodup).mpr fun k => ?_
    · exact hd.nodup.map fun a b hab => (LoopId.mk.inj hab).2
    · obtain ⟨a, ha, rfl⟩ := mem_map.mp hk
      exact (hd.fresh a ha).1 hin
    · rw [hd.mem_own, mem_append, mem_map, or_comm]
      refine or_congr_right ⟨?_, fun hk => ⟨k.start, hk.2, by rw [← hk.1]⟩⟩
      rintro ⟨a, ha, rfl⟩
      exact ⟨rfl, ha⟩
  rw [show t'.all = t.all by rw [hd.rest]]
  exact (perm_append_comm_assoc _ _ _).trans ((h.keys.append_left _).trans hnew)

/-- Recording a loop that is due. It fails only if a loop found from its start is due too. -/
theorem Booked.recordLoop_meets (h : Booked g (k :: due) t) {Q : Fault → Prop}
    (hfault : ∀ other ∈ k :: due, other.outer = k.start → Q (.noLoop other.start)) :
    Meets (Booked g due) Q (recordLoop k.outer t k.start) := by
  have hall : k ∉ t.all.keys := fun hin => (nodup_append.mp h.nodup).2.2 k hin k (.head _) rfl
  have hrecords :
      Meets (fun t' => ∃ inside, t.Records k inside t') Q (recordLoop k.outer t k.start) := by
    refine Meets.foldlM ⟨[], .opened h.sound hall⟩ fun t₁ other hother h₁ => ?_
    obtain ⟨inside, h₁⟩ := h₁
    unfold takeIn
    split
    · rename_i hcond
      simp only [ne_eq, Bool.and_eq_true, decide_eq_true_eq] at hcond
      obtain ⟨⟨⟨hne, hout⟩, -⟩, -⟩ := hcond
      cases hget : t₁.all.get? other with
      | some nodes => exact ⟨_, h₁.takeIn hne hget⟩
      | none =>
        refine hfault other ((mem_append.mp (h.keys.symm.subset hother)).resolve_left fun hin => ?_)
          hout
        refine OrdMap.get?_eq_none.mp hget ?_
        rw [h₁.keys]
        exact mem_append_left _ hin
    · exact ⟨inside, h₁⟩
  refine hrecords.mono fun t' h' => ?_
  obtain ⟨inside, h'⟩ := h'
  refine ⟨h.sound.records h' (h.mem_own (.head _)) hall, ?_⟩
  rw [h'.keys, h'.own, append_assoc]
  exact h.keys

end Exploration

end Decompiler
