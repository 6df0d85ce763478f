import Decompiler.Proofs.EquivalentLoops
import Decompiler.Proofs.SpuriousLoops
/-!
# When a function has a loop nest

From the edges back to the start of a loop, the nest looks backwards for the place where the last
part of the loop begins. It goes on from a node whose ways in cannot leave the loop, and has to find
predecessors wherever it comes. The only node of a well formed graph that may have none is the
entry. So the loop nest exists unless this search gets to an entry without predecessors
(`Finds.assemble_iff`), which takes a loop that can be entered at two places. Which loops a nest has
depends on the order in which sets are gone through; `Graph.HasNest` admits every order.
-/

namespace Decompiler

open List

namespace LoopNest

open Exploration (Place Placed place_iff)

variable {g : Graph} {start : Int} {nodes : List Int} {key : LoopId}

/-- Some way into a node could also have left the loop. -/
def SideExit (g : Graph) (nodes : List Int) (a : Int) : Prop :=
  ∃ p q, g.Edge p a ∧ g.Edge p q ∧ q ∉ nodes

/-- The search goes back along an edge: from a node other than the start whose ways in cannot leave
the loop. -/
def GoesBack (g : Graph) (start : Int) (nodes : List Int) (a b : Int) : Prop :=
  a ≠ start ∧ ¬ SideExit g nodes a ∧ g.Edge b a

/-- The search from the edges back to the start gets to an entry that has no predecessors. -/
def BackToEntry (g : Graph) (start : Int) (nodes : List Int) : Prop :=
  g.entry ∉ g.preds.keys ∧
    ∃ latch ∈ nodes, g.Edge latch start ∧
    Relation.ReflTransGen (GoesBack g start nodes) latch g.entry

/-! ## Ways out on the way in -/

theorem hasSideExit_eq_ok (nodes : List Int) : ∀ (l : List Int), (∀ p ∈ l, ∃ a, g.Edge p a) →
    ∃ b, hasSideExit g nodes l = .ok b ∧ (b = true ↔ ∃ p ∈ l, ∃ q, g.Edge p q ∧ q ∉ nodes) := by
  intro l
  induction l with
  | nil => intro _; exact ⟨false, rfl, by simp⟩
  | cons p l ih =>
    intro hl
    obtain ⟨a, hedge⟩ := hl p (.head _)
    obtain ⟨next, hs, -⟩ := OrdMap.exists_of_mem_getD hedge
    have hout : next.any (· ∉ nodes) = true ↔ ∃ q, g.Edge p q ∧ q ∉ nodes := by
      simp [Graph.Edge, Graph.next, OrdMap.getD_of_get? hs]
    rw [hasSideExit, hs, exists_mem_cons_iff, ← hout]
    dsimp only
    split
    · rename_i hany
      exact ⟨true, rfl, fun _ => .inl hany, fun _ => rfl⟩
    · rename_i hany
      obtain ⟨b, hb, hiff⟩ := ih fun p' hp' => hl p' (.tail _ hp')
      exact ⟨b, hb, hiff.trans (or_iff_right hany).symm⟩

theorem hasSideExit_preds (hg : g.WellFormed) (nodes : List Int) {a : Int} {preds : List Int}
    (hp : g.preds.get? a = some preds) :
    ∃ b, hasSideExit g nodes preds = .ok b ∧ (b = true ↔ SideExit g nodes a) := by
  have hmem : ∀ p, p ∈ preds ↔ g.Edge p a := fun _ => Graph.mem_iff_edge hg hp
  obtain ⟨b, hb, hiff⟩ := hasSideExit_eq_ok nodes preds fun p hp => ⟨a, (hmem p).mp hp⟩
  refine ⟨b, hb, hiff.trans ⟨?_, ?_⟩⟩
  · rintro ⟨p, hp, q, hq, hout⟩
    exact ⟨p, q, (hmem p).mp hp, hq, hout⟩
  · rintro ⟨p, q, hp, hq, hout⟩
    exact ⟨p, (hmem p).mpr hp, q, hq, hout⟩

/-! ## The search backwards -/

/-- A node the search has dealt with: it has predecessors, and either it ends the search or has been
tried. -/
def Handled (g : Graph) (nodes tried : List Int) (a : Int) : Prop :=
  a ∈ g.preds.keys ∧ (SideExit g nodes a ∨ a ∈ tried)

/-- The search has gone from `tried` to `tried'`: the predecessors of whatever was tried on the way
are dealt with. -/
structure Tries (g : Graph) (nodes tried tried' : List Int) : Prop where
  placed : Placed g tried'
  mono : tried ⊆ tried'
  preds : ∀ a ∈ tried', a ∉ tried → ∀ b, g.Edge b a → Handled g nodes tried' b

theorem Handled.mono {tried tried' : List Int} {a : Int} (h : Handled g nodes tried a)
    (hsub : tried ⊆ tried') : Handled g nodes tried' a :=
  ⟨h.1, h.2.imp_right fun hin => hsub hin⟩

theorem Tries.trans {t₁ t₂ t₃ : List Int} (h₁ : Tries g nodes t₁ t₂) (h₂ : Tries g nodes t₂ t₃) :
    Tries g nodes t₁ t₃ := by
  refine ⟨h₂.placed, fun a ha => h₂.mono (h₁.mono ha), fun a ha hnew b hb => ?_⟩
  by_cases ha₂ : a ∈ t₂
  · exact (h₁.preds a ha₂ hnew b hb).mono h₂.mono
  · exact h₂.preds a ha ha₂ b hb

/-- A search from one node after the other deals with all of them. -/
theorem foldlM_tries (nodes base : List Int) {Q : Fault → Prop}
    {f : ClosingSearch → Int → Except Fault ClosingSearch} :
    ∀ (l : List Int) (s : ClosingSearch), Tries g nodes base s.tried →
      (∀ p ∈ l, ∀ s, Tries g nodes base s.tried →
        Meets (fun s' => Tries g nodes s.tried s'.tried ∧ Handled g nodes s'.tried p) Q (f s p)) →
      Meets (fun s' => Tries g nodes base s'.tried ∧ s.tried ⊆ s'.tried ∧
        ∀ p ∈ l, Handled g nodes s'.tried p) Q (l.foldlM f s) := by
  intro l
  induction l with
  | nil => intro s h _; exact ⟨h, fun _ h => h, forall_mem_nil _⟩
  | cons p l ih =>
    intro s h hstep
    rw [foldlM_cons]
    refine (hstep p (.head _) s h).bind fun s₁ hs₁ => ?_
    obtain ⟨h₁, hhandled⟩ := hs₁
    refine (ih s₁ (h.trans h₁) (forall_mem_cons.mp hstep).2).mono fun s₂ hs₂ => ?_
    obtain ⟨h₂, hsub, hall⟩ := hs₂
    exact ⟨h₂, fun x hx => hsub (h₁.mono hx), forall_mem_cons.mpr ⟨hhandled.mono hsub, hall⟩⟩

/-- The cause of a failure: an entry without predecessors, to which the search has come from `a`. -/
def Strays (g : Graph) (start : Int) (nodes : List Int) (a : Int) (_ : Fault) : Prop :=
  g.entry ∉ g.preds.keys ∧ Relation.ReflTransGen (GoesBack g start nodes) a g.entry

theorem closingFrom_meets (hg : g.WellFormed) (key : LoopId) (nodes : List Int) :
    ∀ (fuel : Nat) (a : Int)
    (s : ClosingSearch), Place g a → Placed g s.tried → key.start ∈ s.tried →
    g.nodes.size < fuel + s.tried.length →
    Meets (fun s' => Tries g nodes s.tried s'.tried ∧ Handled g nodes s'.tried a)
      (Strays g key.start nodes a) (closingFrom g key nodes fuel a s) := by
  intro fuel
  induction fuel with
  | zero =>
    intro a s _ hs _ hfuel
    have := hs.length_le_size hg
    omega
  | succ fuel ih =>
    intro a s ha hs hstart hfuel
    rw [closingFrom]
    cases hp : g.preds.get? a with
    | none =>
      -- Every node but the entry is reached by an edge, so it has predecessors.
      have hnot : a ∉ g.preds.keys := OrdMap.get?_eq_none.mp hp
      have hentry : a = g.entry := by
        rcases ha with h | ⟨b, hedge⟩
        · exact h
        · exact absurd (Graph.mem_preds_keys hg hedge) hnot
      rw [hentry] at hnot ⊢
      exact ⟨hnot, Relation.ReflTransGen.refl⟩
    | some preds =>
      have hmem : ∀ p, p ∈ preds ↔ g.Edge p a := fun _ => Graph.mem_iff_edge hg hp
      have hkey : a ∈ g.preds.keys := OrdMap.mem_keys_of_get? hp
      obtain ⟨b, hb, hiff⟩ := hasSideExit_preds hg nodes hp
      have hrefl : Tries g nodes s.tried s.tried := ⟨hs, fun _ h => h, fun _ h h' => absurd h h'⟩
      simp only [hb, bind, Except.bind]
      cases b with
      | true => exact ⟨hrefl, hkey, .inl (hiff.mp rfl)⟩
      | false =>
        have hno : ¬ SideExit g nodes a := fun h => Bool.false_ne_true (hiff.mpr h)
        simp only [Bool.false_eq_true, if_false]
        split
        · rename_i htried
          exact ⟨hrefl, hkey, .inr htried⟩
        · rename_i hnew
          have hne : a ≠ key.start := fun h => hnew (h ▸ hstart)
          have hs' : Placed g (a :: s.tried) := hs.cons hnew ha
          have hfold := foldlM_tries nodes (a :: s.tried) (Q := Strays g key.start nodes a)
            (f := fun s p => closingFrom g key nodes fuel p s) preds ⟨a :: s.tried, s.closing⟩ ⟨hs',
              fun _ h => h, fun _ h h' => absurd h h'⟩ fun p hp s₁ h₁ => ?_
          · refine hfold.mono fun s' hs' => ?_
            obtain ⟨htries, -, hall⟩ := hs'
            have hself : a ∈ s'.tried := htries.mono (.head _)
            refine ⟨⟨htries.placed, fun x hx => htries.mono (.tail _ hx), fun x hx hx' c hc => ?_⟩,
              hkey, .inr hself⟩
            by_cases hxa : x = a
            · exact hall c ((hmem c).mpr (hxa ▸ hc))
            · exact htries.preds x hx (fun hin => (mem_cons.mp hin).elim hxa hx') c hc
          · have hedge := (hmem p).mp hp
            have hlen : s.tried.length + 1 ≤ s₁.tried.length := (hs'.1.subperm h₁.mono).length_le
            have hplace := (place_iff hg).mpr (Graph.mem_nodes_of_edge hg hedge)
            refine (ih p s₁ hplace h₁.placed (h₁.mono (.tail _ hstart))
              (by omega)).mono_error fun e he => ?_
            exact ⟨he.1, Relation.ReflTransGen.head ⟨hne, hno, hedge⟩ he.2⟩

/-- If all is dealt with, the search has not come to a node without predecessors. -/
theorem not_backToEntry {tried : List Int} (h : Tries g nodes [start] tried)
    (hlatch : ∀ p ∈ nodes, g.Edge p start → Handled g nodes tried p) :
    ¬ BackToEntry g start nodes := by
  rintro ⟨hentry, latch, hmem, hedge, hpath⟩
  refine hentry ?_
  have hall : ∀ a, Relation.ReflTransGen (GoesBack g start nodes) latch a →
      Handled g nodes tried a := by
    intro a ha
    induction ha with
    | refl => exact hlatch latch hmem hedge
    | @tail b c _ hback ih =>
      obtain ⟨hne, hno, hbc⟩ := hback
      have hin : b ∈ tried := ih.2.resolve_left hno
      exact h.preds b hin (fun hs => hne (mem_singleton.mp hs)) c hbc
  exact (hall g.entry hpath).1

/-- The last part of a loop is found unless the search gets to an entry without predecessors. -/
theorem closingOf_eq_ok_iff (hg : g.WellFormed) (closing : OrdMap Int (List LoopId))
    {loop : LoopId × List Int} (hround : g.GoesRound loop.1.start loop.2) :
    (∃ closing', closingOf g closing loop = .ok closing') ↔
      ¬ BackToEntry g loop.1.start loop.2 := by
  obtain ⟨preds, hpreds⟩ := OrdMap.mem_keys.mp hround.start_preds
  have hmem : ∀ p, p ∈ preds ↔ g.Edge p loop.1.start := fun _ => Graph.mem_iff_edge hg hpreds
  have hstart : Placed g [loop.1.start] := (Placed.nil g).cons not_mem_nil
    (.inr (Graph.exists_edge_of_mem_preds hg hround.start_preds))
  have hlatch : ∀ p ∈ preds.filter (· ∈ loop.2), p ∈ loop.2 ∧ g.Edge p loop.1.start := by
    intro p hp
    obtain ⟨hp, hin⟩ := mem_filter.mp hp
    exact ⟨of_decide_eq_true hin, (hmem p).mp hp⟩
  have hmeets := foldlM_tries loop.2 [loop.1.start]
    (Q := fun _ => BackToEntry g loop.1.start loop.2)
    (f := fun s p => closingFrom g loop.1 loop.2 (g.nodes.size + 2) p s) (preds.filter (· ∈ loop.2))
    ⟨[loop.1.start], closing⟩ ⟨hstart, fun _ h => h, fun _ h h' => absurd h h'⟩ fun p hp s h => by
      obtain ⟨hin, hedge⟩ := hlatch p hp
      have hplace := (place_iff hg).mpr (Graph.mem_nodes_of_edge hg hedge)
      refine (closingFrom_meets hg loop.1 loop.2 (g.nodes.size + 2) p s hplace h.placed
        (h.mono (.head _)) (by omega)).mono_error fun e he => ?_
      exact ⟨he.1, p, hin, hedge, he.2⟩
  rw [closingOf, hpreds]
  dsimp only
  cases hres : (preds.filter (· ∈ loop.2)).foldlM
      (fun s p => closingFrom g loop.1 loop.2 (g.nodes.size + 2) p s) ⟨[loop.1.start], closing⟩ with
  | error e =>
    rw [hres] at hmeets
    refine ⟨fun hok => ?_, fun hnot => absurd hmeets hnot⟩
    obtain ⟨c, hc⟩ := hok
    cases hc
  | ok s =>
    rw [hres] at hmeets
    obtain ⟨htries, -, hall⟩ := hmeets
    refine ⟨fun _ => not_backToEntry htries fun p hp hedge => hall p ?_, fun _ => ⟨s.closing, rfl⟩⟩
    exact mem_filter.mpr ⟨(hmem p).mpr hedge, decide_eq_true hp⟩

/-! ## The loop nest -/

theorem without_nil (m : OrdMap LoopId (List Int)) : without m [] = m := by
  simp [without]

/-- The last parts of all loops are found exactly if that of each is. -/
theorem foldlM_closingOf_eq_ok_iff (hg : g.WellFormed) : ∀ (l : List (LoopId × List Int))
    (closing : OrdMap Int (List LoopId)), (∀ e ∈ l, g.GoesRound e.1.start e.2) →
    ((∃ closing', l.foldlM (closingOf g) closing = .ok closing') ↔
      ∀ e ∈ l, ¬ BackToEntry g e.1.start e.2) := by
  intro l
  induction l with
  | nil => intro closing _; exact ⟨fun _ => forall_mem_nil _, fun _ => ⟨closing, rfl⟩⟩
  | cons e l ih =>
    intro closing hl
    obtain ⟨he, hrest⟩ := forall_mem_cons.mp hl
    rw [foldlM_cons, forall_mem_cons, ← closingOf_eq_ok_iff hg closing he]
    constructor
    · rintro ⟨c, hc⟩
      obtain ⟨c₁, h₁, h₂⟩ := Except.bind_eq_ok.mp hc
      exact ⟨⟨c₁, h₁⟩, (ih c₁ hrest).mp ⟨c, h₂⟩⟩
    · rintro ⟨⟨c₁, h₁⟩, h₂⟩
      obtain ⟨c, hc⟩ := (ih c₁ hrest).mpr h₂
      exact ⟨c, Except.bind_eq_ok.mpr ⟨c₁, h₁, hc⟩⟩

end LoopNest

/-- The same tables, with the loops inside and around each loop named in another order. -/
structure LoopTables.Reorders (t t' : LoopTables) : Prop where
  own : t'.own = t.own
  all : t'.all = t.all
  keys : t'.inner.keys = t.inner.keys
  inner : ∀ k, (t'.inner.getD k []).Perm (t.inner.getD k [])
  outer : ∀ k, (t'.outer.getD k []).Perm (t.outer.getD k [])

theorem LoopTables.Reorders.refl (t : LoopTables) : t.Reorders t :=
  ⟨rfl, rfl, rfl, fun _ => .refl _, fun _ => .refl _⟩

theorem LoopTables.Sound.reorder {g : Graph} {t t' : LoopTables} (h : t.Sound g)
    (hr : t.Reorders t') : t'.Sound g := by
  obtain ⟨hown, hall, hkeys, hinner, houter⟩ := hr
  have hmem : ∀ k x, x ∈ t'.inner.getD k [] ↔ x ∈ t.inner.getD k [] := fun k _ => (hinner k).mem_iff
  have hmem' : ∀ k x, x ∈ t'.outer.getD k [] ↔ x ∈ t.outer.getD k [] :=
    fun k _ => (houter k).mem_iff
  constructor <;> simp only [hown, hall, hkeys, hmem, hmem']
  exacts [h.own_nodup, h.own_round, h.all_own, h.all_nodup, h.all_round, h.inner_keys,
    h.inner_before, h.converse, h.gathers]

namespace Graph

open LoopNest Exploration

variable {g : Graph} {t : LoopTables} {equiv : OrdMap LoopId (List LoopId)} {spurious : List LoopId}
  {nest : LoopNest}

/-- The tables with which some run of the search for loops returns, with the equivalent loops and
the spurious ones that are found among them. Every set is gone through in some order. -/
inductive Finds (g : Graph) (t : LoopTables) (equiv : OrdMap LoopId (List LoopId)) :
    List LoopId → Prop
  | run {waiting found order order' marked} :
    Exploration.Reaches g (Config.start g) (.running [] waiting found) → found.Reorders t →
    order.Perm t.own.entries → Compares order ∅ equiv → order'.Perm t.own.entries →
      Sifts t equiv order' [] marked →
    Finds g t equiv (unmarkAll t marked)

/-- A loop nest that comes of some run of the search for loops. -/
def HasNest (g : Graph) (nest : LoopNest) : Prop :=
  ∃ t equiv spurious, g.Finds t equiv spurious ∧ assemble g t equiv spurious = .ok nest

/-- One of the runs goes through every set in the order of insertion. -/
theorem finds_of_loops (h : g.loops = .ok t) :
    g.Finds t (equivalences t.own.entries ∅) (spuriousLoops t (equivalences t.own.entries ∅)) := by
  have hleads := loops_leads g
  rw [h] at hleads
  obtain ⟨-, hreach, waiting, rfl⟩ := hleads
  exact .run hreach (.refl t) (.refl _) (equivalences_compares _ _) (.refl _) (markAll_sifts _ _ _)

theorem hasNest_of_loopNest (h : g.loopNest = .ok nest) : g.HasNest nest := by
  obtain ⟨t, ht, h⟩ := Except.bind_eq_ok.mp h
  exact ⟨t, _, _, finds_of_loops ht, h⟩

theorem Finds.exists_run (h : g.Finds t equiv spurious) : ∃ waiting found,
    Exploration.Reaches g (Config.start g) (.running [] waiting found) ∧ found.own = t.own ∧
      found.all = t.all := by
  obtain ⟨hreach, hr, -, -, -, -⟩ := h
  exact ⟨_, _, hreach, hr.own.symm, hr.all.symm⟩

/-- Whatever the run, the tables are sound, every loop found is recorded, and no loop is
spurious. -/
theorem Finds.sound (hg : g.WellFormed) (h : g.Finds t equiv spurious) :
    t.Sound g ∧ (∀ k, k ∈ t.all.keys ↔ k ∈ t.own.keys) ∧ spurious = [] := by
  obtain ⟨hreach, hr, -, -, horder, hsifts⟩ := h
  obtain ⟨hfound, hkeys⟩ := sound_of_reaches hg hreach
  have hsound := hfound.reorder hr
  have hall : ∀ k, k ∈ t.all.keys ↔ k ∈ t.own.keys := by
    rw [hr.own, hr.all]
    exact fun k => hkeys.mem_iff
  have hstart : Deep t [] := ⟨nodup_nil, forall_mem_nil _, forall_mem_nil _⟩
  exact ⟨hsound, hall, unmarkAll_eq_nil hsound hall (hsifts.deep hsound hall
    (fun b hb => (hall b.1).mpr (mem_map_of_mem (horder.mem_iff.mp hb))) hstart)⟩

/-- What a nest is made of. -/
theorem closing_of_assemble (h : assemble g t equiv [] = .ok nest) : ∃ closing,
    t.all.entries.foldlM (closingOf g) ∅ = .ok closing ∧ nest = ⟨t, equiv, [],
      (t.all.entries.filter fun e => isEndless g e.2).map Prod.fst,
        distinct (t.all.keys.map (·.start)), closing,
      g.nodes.keys.filter (· ∉ t.own.values.flatten)⟩ := by
  simp only [assemble, without_nil] at h
  obtain ⟨closing, hclosing, h⟩ := Except.bind_eq_ok.mp h
  exact ⟨closing, hclosing, (Except.ok.inj h).symm⟩

/-- The loops found have a nest exactly if no search for the last part of a loop gets to an entry
without predecessors. The nest keeps all the loops, none of which is spurious. -/
theorem Finds.assemble_iff (hg : g.WellFormed) (h : g.Finds t equiv spurious) :
    ((∃ nest, assemble g t equiv spurious = .ok nest) ↔
      ∀ e ∈ t.all.entries, ¬ BackToEntry g e.1.start e.2) ∧
      ∀ nest, assemble g t equiv spurious = .ok nest → nest.tables = t ∧ nest.spurious = [] := by
  obtain ⟨hsound, -, rfl⟩ := h.sound hg
  refine ⟨Iff.trans ⟨?_, ?_⟩ (foldlM_closingOf_eq_ok_iff hg t.all.entries ∅ fun e he =>
    hsound.all_round e.1 e.2 (OrdMap.get?_of_mem_entries hsound.all_nodup he)),
      fun nest hnest => ?_⟩
  · rintro ⟨nest, hnest⟩
    obtain ⟨closing, hclosing, -⟩ := closing_of_assemble hnest
    exact ⟨closing, hclosing⟩
  · rintro ⟨closing, hclosing⟩
    simp only [LoopNest.assemble, without_nil, hclosing]
    exact ⟨_, rfl⟩
  · obtain ⟨closing, -, rfl⟩ := closing_of_assemble hnest
    exact ⟨rfl, rfl⟩

/-- A nest has the loops of a run, and they are sound. -/
theorem HasNest.sound (hg : g.WellFormed) (h : g.HasNest nest) :
    nest.tables.Sound g ∧ nest.spurious = [] := by
  obtain ⟨t, equiv, spurious, hfinds, hnest⟩ := h
  obtain ⟨htables, hspurious⟩ := (hfinds.assemble_iff hg).2 nest hnest
  exact ⟨htables ▸ (hfinds.sound hg).1, hspurious⟩

end Graph

end Decompiler
