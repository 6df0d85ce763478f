import Decompiler.Flow.LoopNest
import Decompiler.Proofs.OrdMap
import Mathlib.Tactic.Tauto
/-!
# Which loops are equivalent

Each loop is compared once with every other one, and what is found is noted for both. The loops that
are left may be gone through in any order, and in another one for each loop (`Compares`). Whatever
the order, two loops are equivalent in the end exactly if they are different and have the same nodes
(`areEquivalent_iff`): a pair is met once, by the loop that comes first, and the test does not
depend on which of the two that is.
-/

namespace Decompiler.LoopNest

open List

/-- Compares a loop with another one, and notes it if the two are equivalent. -/
def compareWith (a : LoopId × List Int) (m : OrdMap LoopId (List LoopId)) (b : LoopId × List Int) :
    OrdMap LoopId (List LoopId) :=
  if isShifted a b then linkLoops m a.1 b.1 else m

/-- Each loop of a list is compared with those after it, taken in some order. -/
inductive Compares :
    List (LoopId × List Int) → OrdMap LoopId (List LoopId) → OrdMap LoopId (List LoopId) → Prop
  | nil {m} : Compares [] m m
  | cons {a m m'} {rest order : List (LoopId × List Int)} : order.Perm rest →
    Compares rest (order.foldl (compareWith a) m) m' → Compares (a :: rest) m m'

/-- The search for equivalent loops takes them in the order of the table. -/
theorem equivalences_compares (l : List (LoopId × List Int)) :
    ∀ m, Compares l m (equivalences l m) := by
  induction l with
  | nil => intro m; exact .nil
  | cons a rest ih => intro m; exact .cons (Perm.refl _) (ih _)

/-- Two different loops of a list have the same nodes. -/
def Alike (l : List (LoopId × List Int)) (k k' : LoopId) : Prop :=
  k ≠ k' ∧ ∃ nodes nodes', (k, nodes) ∈ l ∧ (k', nodes') ∈ l ∧ ∀ x, x ∈ nodes ↔ x ∈ nodes'

variable {m m' : OrdMap LoopId (List LoopId)} {a b : LoopId × List Int} {k k' : LoopId}
  {l : List (LoopId × List Int)}

theorem Alike.symm (h : Alike l k k') : Alike l k' k := by
  obtain ⟨hne, nodes, nodes', hk, hk', hsame⟩ := h
  exact ⟨hne.symm, nodes', nodes, hk', hk, fun x => (hsame x).symm⟩

/-- Of two loops that contain their starts, the test looks at the nodes only. -/
theorem isShifted_iff (ha : a.1.start ∈ a.2) (hb : b.1.start ∈ b.2) :
    isShifted a b = true ↔ ∀ x, x ∈ a.2 ↔ x ∈ b.2 := by
  simp only [isShifted, sameElements, Bool.and_eq_true, decide_eq_true_eq, all_eq_true]
  constructor
  · rintro ⟨-, hab, hba⟩ x
    exact ⟨hab x, hba x⟩
  · intro h
    exact ⟨⟨(h _).mp ha, (h _).mpr hb⟩, fun x => (h x).mp, fun x => (h x).mpr⟩

theorem mem_linkLoops {c d : LoopId} :
    k' ∈ (linkLoops m c d).getD k [] ↔ k' ∈ m.getD k [] ∨ (k = c ∧ k' = d) ∨ (k = d ∧ k' = c) := by
  rw [linkLoops, OrdMap.getD_upsert, OrdMap.getD_upsert, OrdMap.getD_upsert]
  by_cases hd : d = k <;> by_cases hc : c = k <;> simp [hd, hc, eq_comm] <;> tauto

/-- What is noted when a loop is compared with others. -/
theorem mem_foldl_compareWith :
    ∀ (order : List (LoopId × List Int)) (m : OrdMap LoopId (List LoopId)),
    k' ∈ (order.foldl (compareWith a) m).getD k [] ↔ k' ∈ m.getD k [] ∨
      ∃ b ∈ order, isShifted a b = true ∧ ((k = a.1 ∧ k' = b.1) ∨ (k = b.1 ∧ k' = a.1)) := by
  intro order
  induction order with
  | nil => intro m; simp
  | cons b rest ih =>
    intro m
    rw [foldl_cons, ih, exists_mem_cons_iff, compareWith]
    by_cases hb : isShifted a b = true
    · rw [if_pos hb, mem_linkLoops, and_iff_right hb, or_assoc]
    · simp [hb]

/-- What is noted when each loop is compared with those after it: every pair is met. -/
theorem Compares.mem_iff (h : Compares l m m') (hkeys : (l.map Prod.fst).Nodup)
    (hstart : ∀ e ∈ l, e.1.start ∈ e.2) : k' ∈ m'.getD k [] ↔ k' ∈ m.getD k [] ∨ Alike l k k' := by
  induction h with
  | nil => simp [Alike]
  | @cons a m m' rest order horder _ ih =>
    obtain ⟨hnot, hkeys⟩ := nodup_cons.mp hkeys
    obtain ⟨ha, hrest⟩ := forall_mem_cons.mp hstart
    rw [ih hkeys hrest, mem_foldl_compareWith, or_assoc]
    refine or_congr_right ⟨?_, ?_⟩
    · rintro (⟨b, hb, hshift, hpair⟩ | ⟨hne, nodes, nodes', hk, hk', hsame⟩)
      · have hb := horder.mem_iff.mp hb
        have halike : Alike (a :: rest) a.1 b.1 :=
          ⟨fun heq => hnot (heq ▸ mem_map_of_mem hb), a.2, b.2,
          .head _, .tail _ hb, (isShifted_iff ha (hrest b hb)).mp hshift⟩
        rcases hpair with ⟨rfl, rfl⟩ | ⟨rfl, rfl⟩
        · exact halike
        · exact halike.symm
      · exact ⟨hne, nodes, nodes', .tail _ hk, .tail _ hk', hsame⟩
    · rintro ⟨hne, nodes, nodes', hk, hk', hsame⟩
      -- The loop that is compared now may be either of the two, or none; it is not both.
      rcases mem_cons.mp hk with rfl | hmem
      · have hother := mem_of_ne_of_mem (fun heq => hne (Prod.mk.inj heq).1.symm) hk'
        exact .inl ⟨_, horder.mem_iff.mpr hother, (isShifted_iff ha (hrest _ hother)).mpr hsame,
          .inl ⟨rfl, rfl⟩⟩
      · rcases mem_cons.mp hk' with rfl | hmem'
        · exact .inl ⟨_, horder.mem_iff.mpr hmem, (isShifted_iff ha (hrest _ hmem)).mpr fun x =>
            (hsame x).symm, .inr ⟨rfl, rfl⟩⟩
        · exact .inr ⟨hne, nodes, nodes', hmem, hmem', hsame⟩

/-- For every table of loops that contain their starts, and every order in which the loops and those
left to compare them with are gone through: two loops are equivalent in the end exactly if they are
different and have the same nodes. So no loop is its own equivalent, equivalents are so of each
other, and so are different equivalents of one loop. The order of the table is one of these. -/
theorem areEquivalent_iff {own : OrdMap LoopId (List Int)} (hkeys : own.keys.Nodup)
    (hstart : ∀ e ∈ own.entries, e.1.start ∈ e.2) :
    Compares own.entries ∅ (equivalences own.entries ∅) ∧
    ∀ (order : List (LoopId × List Int)) m, order.Perm own.entries → Compares order ∅ m →
      (∀ k k', areEquivalent m k k' = true ↔ Alike own.entries k k') ∧
      (∀ k, areEquivalent m k k = false) ∧
      (∀ k k', areEquivalent m k k' = true → areEquivalent m k' k = true) ∧
      ∀ k₁ k₂ k₃, areEquivalent m k₁ k₂ = true → areEquivalent m k₂ k₃ = true → k₁ ≠ k₃ →
        areEquivalent m k₁ k₃ = true := by
  refine ⟨equivalences_compares _ _, fun order m horder hm => ?_⟩
  have hiff : ∀ k k', areEquivalent m k k' = true ↔ Alike own.entries k k' := by
    intro k k'
    rw [areEquivalent, decide_eq_true_iff, hm.mem_iff ((horder.map _).nodup_iff.mpr hkeys)
      fun e he => hstart e (horder.mem_iff.mp he), or_iff_right (by rintro ⟨⟩)]
    simp only [Alike, horder.mem_iff]
  refine ⟨hiff, fun k => Bool.eq_false_iff.mpr fun h => ((hiff k k).mp h).1 rfl,
    fun k k' h => (hiff k' k).mpr ((hiff k k').mp h).symm, fun k₁ k₂ k₃ h₁₂ h₂₃ hne => ?_⟩
  obtain ⟨-, nodes₁, nodes₂, h₁, h₂, hsame⟩ := (hiff k₁ k₂).mp h₁₂
  obtain ⟨-, nodes₂', nodes₃, h₂', h₃, hsame'⟩ := (hiff k₂ k₃).mp h₂₃
  obtain rfl : nodes₂ = nodes₂' := Option.some.inj
    ((OrdMap.get?_of_mem_entries hkeys h₂).symm.trans (OrdMap.get?_of_mem_entries hkeys h₂'))
  exact (hiff k₁ k₃).mpr ⟨hne, nodes₁, nodes₃, h₁, h₃, fun x => (hsame x).trans (hsame' x)⟩

/-- Two loops with the same nodes and one with fewer, taken backwards: the two are equivalent, the
third to neither. -/
theorem areEquivalent_iff_three :
    let own : OrdMap LoopId (List Int) := ⟨[(⟨0, 1⟩, [1, 2]), (⟨0, 2⟩, [2, 1]), (⟨1, 2⟩, [2])]⟩
    let m := equivalences own.entries.reverse ∅
    own.keys.Nodup ∧ (∀ e ∈ own.entries, e.1.start ∈ e.2) ∧ areEquivalent m ⟨0, 1⟩ ⟨0, 2⟩ = true ∧
    areEquivalent m ⟨0, 1⟩ ⟨1, 2⟩ = false ∧ ∀ k k', areEquivalent m k k' = true ↔
      Alike own.entries k k' := by
  intro own m
  have hkeys : own.keys.Nodup := by decide
  have hstart : ∀ e ∈ own.entries, e.1.start ∈ e.2 := by decide
  obtain ⟨-, hiff⟩ := areEquivalent_iff hkeys hstart
  exact ⟨hkeys, hstart, by decide, by decide,
    (hiff _ _ (reverse_perm _) (equivalences_compares _ _)).1⟩

end Decompiler.LoopNest
