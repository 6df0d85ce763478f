import Decompiler.Flow.LoopNest
import Decompiler.Proofs.Exploration
/-!
# No loop is spurious

The marks that single out spurious loops are all taken off again. Marking goes from a loop to
everything around it and everything inside it, so a marked loop with loops inside has a marked one
among them, and in the end each chain of marked loops goes down to one that has nothing inside.
Marks are taken off from there upwards, and no mark is left (`unmarkAll_eq_nil`). Which loops get a
mark depends on the order in which they are compared (`Sifts`), but not this.
-/

namespace Decompiler.LoopNest

open List OrdMap

variable {g : Graph} {t : LoopTables} {links : OrdMap LoopId (List LoopId)}

/-! ## Closures -/

/-- One step of a closure: everything that can be reached from the loops of a list. -/
def closeAll (links : OrdMap LoopId (List LoopId)) (fuel : Nat) (acc : List LoopId)
    (l : List LoopId) : List LoopId :=
  l.foldl (fun acc k => closure links fuel k acc) acc

theorem closure_succ (fuel : Nat) (k : LoopId) (acc : List LoopId) :
    closure links (fuel + 1) k acc = closeAll links fuel (acc.insert k) (links.getD k []) := rfl

/-- What holds of a closure from each loop of a list holds of all of them together, if it is kept by
going on. -/
theorem closeAll_induction {P : List LoopId → Prop} {fuel : Nat} :
    ∀ {l : List LoopId} {acc : List LoopId}, P acc →
      (∀ k ∈ l, ∀ acc, P acc → P (closure links fuel k acc)) → P (closeAll links fuel acc l) := by
  intro l
  induction l with
  | nil => intro acc h _; exact h
  | cons k l ih =>
    intro acc h hstep
    exact ih (hstep k (.head _) acc h) fun k' hk' => hstep k' (.tail _ hk')

theorem nodup_closure : ∀ (fuel : Nat) (k : LoopId) (acc : List LoopId), acc.Nodup →
    (closure links fuel k acc).Nodup := by
  intro fuel
  induction fuel with
  | zero => intro k acc h; exact h
  | succ fuel ih =>
    intro k acc h
    rw [closure_succ]
    exact closeAll_induction h.insert fun k' _ m hm => ih k' m hm

/-- One loop is linked to another. -/
def Linked (links : OrdMap LoopId (List LoopId)) (k k' : LoopId) : Prop := k' ∈ links.getD k []

/-- If the links go down, a closure with steps enough adds exactly the loops to which links lead. -/
theorem mem_closure_iff {rank : LoopId → Nat}
    (hrank : ∀ k k', k' ∈ links.getD k [] → rank k' < rank k) (x : LoopId) :
    ∀ (fuel : Nat) (k : LoopId) (acc : List LoopId), rank k < fuel →
      (x ∈ closure links fuel k acc ↔ x ∈ acc ∨ Relation.ReflTransGen (Linked links) k x) := by
  intro fuel
  induction fuel with
  | zero => intro k acc h; omega
  | succ fuel ih =>
    intro k acc hk
    have hall : ∀ (l m : List LoopId), (∀ k' ∈ l, rank k' < fuel) →
        (x ∈ closeAll links fuel m l ↔ x ∈ m ∨
          ∃ k' ∈ l, Relation.ReflTransGen (Linked links) k' x) := by
      intro l
      induction l with
      | nil => intro m _; simp [closeAll]
      | cons k' l ihl =>
        intro m hl
        obtain ⟨hk', hl⟩ := forall_mem_cons.mp hl
        rw [exists_mem_cons_iff, ← or_assoc, ← ih k' m hk']
        exact ihl (closure links fuel k' m) hl
    have hlower : ∀ k' ∈ links.getD k [], rank k' < fuel := fun k' hk' => by
      have := hrank k k' hk'
      omega
    rw [closure_succ, hall _ _ hlower, mem_insert_iff, Relation.ReflTransGen.cases_head_iff,
      or_assoc, or_left_comm, eq_comm]
    rfl

/-- The number of loops that were recorded before a loop. -/
def age (t : LoopTables) (k : LoopId) : Nat := t.all.keys.idxOf k

theorem age_le (hall : ∀ k, k ∈ t.all.keys ↔ k ∈ t.own.keys) (h : t.Sound g) (k : LoopId) :
    age t k ≤ t.own.size := by
  have hlen : t.all.keys.length ≤ t.own.keys.length :=
    (h.all_nodup.subperm fun k hk => (hall k).mp hk).length_le
  rw [length_keys t.own] at hlen
  exact le_trans idxOf_le_length hlen

theorem age_inner (h : t.Sound g) (k k' : LoopId) (hk : k' ∈ t.inner.getD k []) :
    age t k' < age t k :=
  (h.inner_before k k' hk).2

/-- Going outwards, the records that are left get fewer. -/
theorem age_outer (hall : ∀ k, k ∈ t.all.keys ↔ k ∈ t.own.keys) (h : t.Sound g) (k k' : LoopId)
    (hk : k' ∈ t.outer.getD k []) : t.own.size - age t k' < t.own.size - age t k := by
  have hlt := age_inner h k' k ((h.converse k' k).mp hk)
  have hle := age_le hall h k'
  omega

/-! ## Marking -/

/-- Each loop of a list is held against those after it, taken in some order, and the spurious ones
are marked. -/
inductive Sifts (t : LoopTables) (equiv : OrdMap LoopId (List LoopId)) :
    List (LoopId × List Int) → List LoopId → List LoopId → Prop
  | nil {marked} : Sifts t equiv [] marked marked
  | cons {a rest order marked marked'} : order.Perm rest →
    Sifts t equiv rest (if a.1 ∈ marked then marked else markAgainst t equiv a order marked)
    marked' → Sifts t equiv (a :: rest) marked marked'

theorem markAll_sifts (equiv : OrdMap LoopId (List LoopId)) :
    ∀ (l : List (LoopId × List Int)) (marked : List LoopId),
      Sifts t equiv l marked (markAll t equiv l marked) := by
  intro l
  induction l with
  | nil => intro marked; exact .nil
  | cons a rest ih => intro marked; exact .cons (.refl _) (ih _)

/-- Marked loops: recorded ones, each once, and each has a marked one inside unless there is nothing
inside. -/
structure Deep (t : LoopTables) (marked : List LoopId) : Prop where
  nodup : marked.Nodup
  recorded : ∀ k ∈ marked, k ∈ t.all.keys
  inside : ∀ k ∈ marked, t.inner.getD k [] = [] ∨ ∃ other ∈ t.inner.getD k [], other ∈ marked

section

variable (h : t.Sound g) (hall : ∀ k, k ∈ t.all.keys ↔ k ∈ t.own.keys) {marked : List LoopId}
  {k x : LoopId}
include h hall

/-- With a loop, the loops around it and the loops inside it are marked. -/
theorem mem_markSpurious_iff : x ∈ markSpurious t marked k ↔
      (x ∈ marked ∨ Relation.ReflTransGen (Linked t.outer) k x) ∨
        Relation.ReflTransGen (Linked t.inner) k x := by
  have hage := age_le hall h k
  rw [markSpurious, mem_closure_iff (age_inner h) x _ k _ (by omega),
    mem_closure_iff (age_outer hall h) x _ k _ (by omega)]

theorem markSpurious_deep (hm : Deep t marked) (hk : k ∈ t.all.keys) :
    Deep t (markSpurious t marked k) := by
  have hmem : ∀ x, x ∈ markSpurious t marked k ↔ _ := fun x => mem_markSpurious_iff h hall
  have hdeep : ∀ x, Relation.ReflTransGen (Linked t.inner) k x →
      t.inner.getD x [] = [] ∨ ∃ other ∈ t.inner.getD x [], other ∈ markSpurious t marked k := by
    intro x hx
    refine (eq_nil_or_concat' (t.inner.getD x [])).imp_right ?_
    rintro ⟨l, y, hl⟩
    have hy : y ∈ t.inner.getD x [] := hl ▸ mem_concat_self
    exact ⟨y, hy, (hmem y).mpr (.inr (hx.tail hy))⟩
  refine ⟨nodup_closure _ k _ (nodup_closure _ k _ hm.nodup), fun x hx => ?_, fun x hx => ?_⟩
  · rcases (hmem x).mp hx with (hx | hx) | hx
    · exact hm.recorded x hx
    · rcases hx.cases_tail with rfl | ⟨y, -, hxy⟩
      · exact hk
      · obtain ⟨l, hl, -⟩ := exists_of_mem_getD ((h.converse x y).mp hxy)
        exact h.inner_keys ▸ mem_keys_of_get? hl
    · rcases hx.cases_tail with rfl | ⟨y, -, hxy⟩
      · exact hk
      · exact (h.inner_before y x hxy).1
  · rcases (hmem x).mp hx with (hx | hx) | hx
    · exact (hm.inside x hx).imp_right
        (Exists.imp fun other => And.imp_right fun hin => (hmem other).mpr (.inl (.inl hin)))
    · rcases hx.cases_tail with rfl | ⟨y, hy, hxy⟩
      · exact hdeep x .refl
      · exact .inr ⟨y, (h.converse x y).mp hxy, (hmem y).mpr (.inl (.inr hy))⟩
    · exact hdeep x hx

theorem markAgainst_deep (equiv : OrdMap LoopId (List LoopId)) {a : LoopId × List Int}
    (ha : a.1 ∈ t.all.keys) :
    ∀ (l : List (LoopId × List Int)) (marked : List LoopId), (∀ b ∈ l, b.1 ∈ t.all.keys) →
      Deep t marked → Deep t (markAgainst t equiv a l marked) := by
  intro l
  induction l with
  | nil => intro marked _ hm; exact hm
  | cons b l ih =>
    intro marked hl hm
    rw [markAgainst]
    refine ih _ (forall_mem_cons.mp hl).2 ?_
    split
    · exact hm
    · split
      · split
        · exact markSpurious_deep h hall hm (hl b (.head _))
        · exact hm
      · split
        · exact markSpurious_deep h hall hm ha
        · exact hm

theorem Sifts.deep {equiv : OrdMap LoopId (List LoopId)} {l : List (LoopId × List Int)}
    {marked' : List LoopId} (hsifts : Sifts t equiv l marked marked')
    (hl : ∀ b ∈ l, b.1 ∈ t.all.keys) (hm : Deep t marked) : Deep t marked' := by
  induction hsifts with
  | nil => exact hm
  | @cons a rest order marked _ horder _ ih =>
    obtain ⟨ha, hrest⟩ := forall_mem_cons.mp hl
    refine ih hrest ?_
    split
    · exact hm
    · exact markAgainst_deep h hall equiv ha order marked (fun b hb =>
        hrest b (horder.mem_iff.mp hb)) hm

end

/-! ## Taking marks off -/

/-- Marks have been taken off, and none is left around a loop from which it was taken. -/
structure Unmarks (t : LoopTables) (marked marked' : List LoopId) : Prop where
  sublist : marked'.Sublist marked
  around : ∀ x ∈ marked, x ∉ marked' → ∀ y ∈ t.outer.getD x [], y ∉ marked'

theorem Unmarks.refl (t : LoopTables) (marked : List LoopId) : Unmarks t marked marked :=
  ⟨List.Sublist.refl _, fun _ h h' => absurd h h'⟩

theorem Unmarks.trans {m₁ m₂ m₃ : List LoopId} (h₁ : Unmarks t m₁ m₂) (h₂ : Unmarks t m₂ m₃) :
    Unmarks t m₁ m₃ := by
  refine ⟨h₂.sublist.trans h₁.sublist, fun x hx hx' y hy => ?_⟩
  by_cases hx₂ : x ∈ m₂
  · exact h₂.around x hx₂ hx' y hy
  · exact fun hin => h₁.around x hx hx₂ y hy (h₂.sublist.subset hin)

/-- Taking the marks off one loop after the other: each loses its mark and none gets it back. -/
theorem foldl_unmarks {n : Nat} {f : List LoopId → LoopId → List LoopId}
    (hf : ∀ (k : LoopId) (m : List LoopId), m.Nodup → m.length < n → Unmarks t m (f m k) ∧
      k ∉ f m k) :
    ∀ (l m : List LoopId), m.Nodup → m.length < n → Unmarks t m (l.foldl f m) ∧
      ∀ y ∈ l, y ∉ l.foldl f m := by
  intro l
  induction l with
  | nil => intro m _ _; exact ⟨Unmarks.refl t m, fun _ h => by cases h⟩
  | cons k l ih =>
    intro m hm hlen
    obtain ⟨h₁, hk⟩ := hf k m hm hlen
    obtain ⟨h₂, hl⟩ := ih (f m k) (hm.sublist h₁.sublist) (lt_of_le_of_lt h₁.sublist.length_le hlen)
    exact ⟨h₁.trans h₂, forall_mem_cons.mpr ⟨fun hin => hk (h₂.sublist.subset hin), hl⟩⟩

theorem unmark_unmarks :
    ∀ (fuel : Nat) (k : LoopId) (marked : List LoopId), marked.Nodup → marked.length < fuel →
    Unmarks t marked (unmark t fuel k marked) ∧ k ∉ unmark t fuel k marked := by
  intro fuel
  induction fuel with
  | zero => intro k marked _ h; omega
  | succ fuel ih =>
    intro k marked hnodup hlen
    rw [unmark]
    split
    · rename_i hk
      have hlen' : (marked.erase k).length < fuel := by
        rw [length_erase_of_mem hk]
        have := length_pos_of_mem hk
        omega
      obtain ⟨h₁, hl⟩ := foldl_unmarks ih (t.outer.getD k []) (marked.erase k)
        (hnodup.erase k) hlen'
      have hnot : k ∉ marked.erase k := hnodup.not_mem_erase
      refine ⟨⟨h₁.sublist.trans erase_sublist, fun x hx hx' y hy => ?_⟩, fun hin =>
        hnot (h₁.sublist.subset hin)⟩
      by_cases hxk : x = k
      · exact hl y (hxk ▸ hy)
      · exact h₁.around x ((mem_erase_of_ne hxk).mpr hx) hx' y hy
    · rename_i hk
      exact ⟨Unmarks.refl t marked, hk⟩

/-- Taking the marks off every loop without loops inside, and off the loops around these, takes off
all. -/
theorem unmarkAll_eq_nil (h : t.Sound g) (hall : ∀ k, k ∈ t.all.keys ↔ k ∈ t.own.keys)
    {marked : List LoopId} (hdeep : Deep t marked) : unmarkAll t marked = [] := by
  have hlen : marked.length < t.own.size + 1 := by
    have := (hdeep.nodup.subperm fun k hk => (hall k).mp (hdeep.recorded k hk)).length_le
    rw [length_keys] at this
    omega
  have hfold : unmarkAll t marked = ((t.inner.entries.filter (·.2.isEmpty)).map Prod.fst).foldl
      (fun m k => unmark t (t.own.size + 1) k m) marked := by
    rw [foldl_map, foldl_filter]
    rfl
  obtain ⟨hun, hleaf⟩ := foldl_unmarks (fun k m => unmark_unmarks (t := t) (t.own.size + 1) k m)
    ((t.inner.entries.filter (·.2.isEmpty)).map Prod.fst) _ hdeep.nodup hlen
  rw [← hfold] at hun hleaf
  -- By induction on the place at which a loop was recorded: what is inside was recorded before.
  have hnone : ∀ (n : Nat) (k : LoopId), t.all.keys.idxOf k < n → k ∈ marked →
      k ∉ unmarkAll t marked := by
    intro n
    induction n with
    | zero => intro k hn; omega
    | succ n ih =>
      intro k hn hk
      rcases hdeep.inside k hk with hempty | ⟨other, hother, hmarked⟩
      · refine hleaf k ?_
        obtain ⟨l, hl⟩ := mem_keys.mp (h.inner_keys.symm ▸ hdeep.recorded k hk : k ∈ t.inner.keys)
        rw [getD_of_get? hl] at hempty
        refine mem_map.mpr ⟨(k, l), mem_filter.mpr ⟨mem_entries_of_get? hl, ?_⟩, rfl⟩
        exact List.isEmpty_iff.mpr hempty
      · have hlt := (h.inner_before k other hother).2
        exact hun.around other hmarked (ih other (by omega) hmarked) k
          ((h.converse k other).mpr hother)
  refine eq_nil_iff_forall_not_mem.mpr fun k hk => ?_
  exact hnone _ k (Nat.lt_succ_self _) (hun.sublist.subset hk) hk

end Decompiler.LoopNest
