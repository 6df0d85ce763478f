import Decompiler.OrdMap
import Mathlib.Data.List.Nodup
import Mathlib.Tactic
/-!
# Keys of insertion-ordered maps

The look-up lemmas of `OrdMap` say what a map answers; the lemmas here say which keys it lists. Both
views are tied by `mem_keys`: a key is listed exactly if a look-up finds it. A map that is only ever
built by `insert` and `erase` from the empty one lists every key once (`keys.Nodup`), which is what
bounds searches by `size`.
-/

namespace Decompiler.OrdMap

open List

variable {κ ν : Type} {w : ν} {k' k : κ}

@[simp] theorem keys_empty : (∅ : OrdMap κ ν).keys = [] := rfl

theorem length_keys (m : OrdMap κ ν) : m.keys.length = m.size := by
  simp [keys, size]

variable [DecidableEq κ]

/-! ## Membership -/

theorem lookup_isSome (k : κ) (l : List (κ × ν)) : (lookup k l).isSome ↔ k ∈ l.map Prod.fst := by
  induction l with
  | nil => simp [lookup]
  | cons e rest ih =>
    by_cases h : e.1 = k
    · simp [lookup, h]
    · have h' : ¬ k = e.1 := fun hk => h hk.symm
      simp [lookup, h, h', ih]

variable {m : OrdMap κ ν} {k : κ} {v : ν}

theorem mem_keys : k ∈ m.keys ↔ ∃ v, m.get? k = some v := by
  rw [keys, ← lookup_isSome, Option.isSome_iff_exists]
  rfl

theorem mem_keys_of_get? (h : m.get? k = some v) : k ∈ m.keys :=
  mem_keys.mpr ⟨v, h⟩

theorem mem_of_lookup : ∀ {l : List (κ × ν)}, lookup k l = some v → (k, v) ∈ l := by
  intro l
  induction l with
  | nil => intro h; cases h
  | cons e rest ih =>
    intro h
    by_cases he : e.1 = k
    · rw [lookup, if_pos he] at h
      rw [← he, ← Option.some.inj h]
      exact (.head _)
    · rw [lookup, if_neg he] at h
      exact .tail _ (ih h)

theorem mem_entries_of_get? (h : m.get? k = some v) : (k, v) ∈ m.entries :=
  mem_of_lookup h

theorem lookup_of_mem : ∀ {l : List (κ × ν)}, (l.map Prod.fst).Nodup → (k, v) ∈ l →
    lookup k l = some v := by
  intro l
  induction l with
  | nil => intro _ h; cases h
  | cons e rest ih =>
    intro hnodup h
    obtain ⟨hnot, hnodup⟩ := nodup_cons.mp hnodup
    rcases mem_cons.mp h with rfl | h
    · rw [lookup, if_pos rfl]
    · have hne : e.1 ≠ k := fun he => hnot (he ▸ mem_map_of_mem h)
      rw [lookup, if_neg hne]
      exact ih hnodup h

theorem get?_of_mem_entries (hm : m.keys.Nodup) (h : (k, v) ∈ m.entries) : m.get? k = some v :=
  lookup_of_mem hm h

theorem get?_eq_none : m.get? k = none ↔ k ∉ m.keys := by
  rw [mem_keys]
  cases h : m.get? k <;> simp

theorem contains_iff : m.contains k = true ↔ k ∈ m.keys := by
  rw [contains, mem_keys, Option.isSome_iff_exists]

@[simp] theorem get?_emptyCollection (k : κ) : (∅ : OrdMap κ ν).get? k = none := rfl

theorem getD_of_get? (h : m.get? k = some v) : m.getD k w = v := by
  simp [getD, h]

theorem getD_of_not_mem (h : k ∉ m.keys) : m.getD k w = w := by
  simp [getD, get?_eq_none.mpr h]

/-- What a table of lists has below a key is in the list stored there. -/
theorem exists_of_mem_getD {α : Type} {m : OrdMap κ (List α)} {a : α} (h : a ∈ m.getD k []) :
    ∃ l, m.get? k = some l ∧ a ∈ l := by
  cases hk : m.get? k with
  | none =>
    rw [getD, hk] at h
    cases h
  | some l => exact ⟨l, rfl, getD_of_get? hk ▸ h⟩

theorem getD_insert (m : OrdMap κ ν) (k k' : κ) (v w : ν) :
    (m.insert k v).getD k' w = if k = k' then v else m.getD k' w := by
  rw [getD, get?_insert]
  split <;> rfl

theorem getD_upsert (m : OrdMap κ ν) (k k' : κ) (v : ν) (f : ν → ν) :
    (m.upsert k v f).getD k' v = if k = k' then f (m.getD k v) else m.getD k' v := by
  rw [upsert, getD_insert]

/-- A map that lists every key once lists the values that are looked up. -/
theorem values_eq_map_keys (hm : m.keys.Nodup) (w : ν) : m.values = m.keys.map (m.getD · w) := by
  rw [values, keys, map_map]
  refine map_congr_left fun e he => ?_
  exact (getD_of_get? (get?_of_mem_entries hm he)).symm

/-! ## Keys after each operation -/

theorem map_fst_put (k : κ) (v : ν) (l : List (κ × ν)) :
    (put k v l).map Prod.fst = if k ∈ l.map Prod.fst then l.map Prod.fst else l.map Prod.fst ++
      [k] := by
  induction l with
  | nil => simp [put]
  | cons e rest ih =>
    by_cases h : e.1 = k
    · simp [put, h]
    · have h' : ¬ k = e.1 := fun hk => h hk.symm
      simp only [put, h, if_false, map_cons, ih, mem_cons, h', false_or]
      split <;> simp

theorem keys_insert (m : OrdMap κ ν) (k : κ) (v : ν) :
    (m.insert k v).keys = if k ∈ m.keys then m.keys else m.keys ++ [k] :=
  map_fst_put k v m.entries

theorem keys_insert_of_not_mem (h : k ∉ m.keys) (v : ν) : (m.insert k v).keys = m.keys ++ [k] := by
  rw [keys_insert, if_neg h]

theorem mem_keys_insert : k' ∈ (m.insert k v).keys ↔ k' = k ∨ k' ∈ m.keys := by
  rw [keys_insert]
  split
  · rename_i h
    constructor
    · exact .inr
    · rintro (rfl | h')
      · exact h
      · exact h'
  · simp [or_comm]

theorem nodup_keys_insert (h : m.keys.Nodup) (k : κ) (v : ν) : (m.insert k v).keys.Nodup := by
  rw [keys_insert]
  split
  · exact h
  · rename_i hk
    exact List.Nodup.append h (nodup_singleton k) (by simpa using hk)

theorem keys_erase (m : OrdMap κ ν) (k : κ) : (m.erase k).keys = m.keys.filter (· ≠ k) := by
  simp only [keys, erase, filter_map]
  rfl

theorem mem_keys_erase : k' ∈ (m.erase k).keys ↔ k' ∈ m.keys ∧ k' ≠ k := by
  simp [keys_erase]

theorem nodup_keys_erase (h : m.keys.Nodup) (k : κ) : (m.erase k).keys.Nodup := by
  rw [keys_erase]
  exact h.filter _

/-- What is found after an insertion is what was inserted or was there before. -/
theorem of_get?_insert {m : OrdMap κ ν} {v v' : ν} (h : (m.insert k v).get? k' = some v') :
    (k = k' ∧ v = v') ∨ m.get? k' = some v' := by
  rw [get?_insert] at h
  split at h
  · exact .inl ⟨by assumption, Option.some.inj h⟩
  · exact .inr h

theorem get?_erase (m : OrdMap κ ν) (k k' : κ) :
    (m.erase k).get? k' = if k = k' then none else m.get? k' := by
  by_cases h : k = k'
  · rw [if_pos h, ← h, get?_erase_self]
  · rw [if_neg h, get?_erase_of_ne m h]

theorem lookup_map (f : ν → ν) (k : κ) (l : List (κ × ν)) :
    lookup k (l.map fun e => (e.1, f e.2)) = (lookup k l).map f := by
  induction l with
  | nil => rfl
  | cons e rest ih =>
    simp only [map_cons, lookup]
    split
    · rfl
    · exact ih

/-- Changing every value changes what is looked up. -/
theorem get?_map (m : OrdMap κ ν) (f : ν → ν) (k : κ) :
    (⟨m.entries.map fun e => (e.1, f e.2)⟩ : OrdMap κ ν).get? k = (m.get? k).map f :=
  lookup_map f k m.entries

/-! ## Entries after each operation -/

section Entries

variable {m : OrdMap κ ν} {e : κ × ν}

omit [DecidableEq κ] in
theorem fst_eq_iff (hm : m.keys.Nodup) (he : e ∈ m.entries) {x : κ × ν} (hx : x ∈ m.entries) :
    x.1 = e.1 ↔ x = e :=
  ⟨fun h => inj_on_of_nodup_map hm hx he h, fun h => h ▸ rfl⟩

variable [DecidableEq ν]

theorem entries_erase (hm : m.keys.Nodup) (he : e ∈ m.entries) :
    (m.erase e.1).entries = m.entries.filterMap fun x => if x = e then none else some x := by
  rw [erase, ← filterMap_eq_filter]
  refine filterMap_congr fun x hx => ?_
  by_cases h : x = e
  · simp [h]
  · simp [h, Option.guard, mt (fst_eq_iff hm he hx).mp h]

omit [DecidableEq ν] in
theorem put_of_mem (v : ν) {l : List (κ × ν)} (hl : (l.map Prod.fst).Nodup)
    (hk : k ∈ l.map Prod.fst) : put k v l = l.map fun x => if x.1 = k then (k, v) else x := by
  induction l with
  | nil => cases hk
  | cons x rest ih =>
    obtain ⟨hnot, hrest⟩ := nodup_cons.mp hl
    rw [put, map_cons]
    split
    · rename_i hx
      have hothers : (rest.map fun y => if y.1 = k then (k, v) else y) = rest := by
        refine (map_congr_left fun y hy => if_neg ?_).trans (map_id rest)
        exact fun hyk => hnot (hx.trans hyk.symm ▸ mem_map_of_mem hy)
      rw [hothers, hx]
    · rename_i hx
      rw [ih hrest ((mem_cons.mp hk).resolve_left (Ne.symm hx))]

theorem entries_insert (hm : m.keys.Nodup) (he : e ∈ m.entries) (v : ν) :
    (m.insert e.1 v).entries = m.entries.filterMap fun x =>
      if x = e then some (e.1, v) else some x := by
  rw [insert, put_of_mem v hm (mem_map_of_mem he), ← filterMap_eq_map]
  refine filterMap_congr fun x hx => ?_
  by_cases h : x = e
  · simp [h]
  · simp [h, mt (fst_eq_iff hm he hx).mp h]

end Entries

end Decompiler.OrdMap
