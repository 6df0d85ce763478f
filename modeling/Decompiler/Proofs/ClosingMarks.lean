import Decompiler.Proofs.Blocks
import Decompiler.Proofs.LoopNest
import Decompiler.Proofs.OneByteCode
/-!
# What the marks on the last part of a loop say

A node is marked for a loop where a path that comes to it is thought to be bound to go round again.
The marks are found backwards from the edges that lead back to the start: the search goes on from a
node unless a way into it could have left the loop, and there it leaves its mark. So a mark says
exactly this: a way into the node could have left the loop, and the search comes there
(`mem_closingOf_iff`). It never says that the start can no longer be missed. The way along which the
search has come leaves the loop nowhere before its last node (`Closes.leads_back`), but this node
may do so, and so may a way that branches off.

A path from a marked node is bound to go round exactly if the node is in the loop and no edge leaves
the loop ahead of it (`returns_iff`).
-/

namespace Decompiler

open List

variable {a x : Int}

namespace LoopNest

variable {g : Graph} {start : Int} {nodes : List Int} {key : LoopId}

/-! ## Marks -/

/-- The search from the edges back to the start comes to a node. -/
def Closes (g : Graph) (start : Int) (nodes : List Int) (a : Int) : Prop :=
  ∃ latch ∈ nodes, g.Edge latch start ∧ Relation.ReflTransGen (GoesBack g start nodes) latch a

/-- A node the search has dealt with: it is marked if a way into it could have left the loop, and
tried if not. -/
structure Looked (g : Graph) (key : LoopId) (nodes : List Int) (s : ClosingSearch) (a : Int) :
    Prop where
  marked : SideExit g nodes a → key ∈ s.closing.getD a []
  tried : ¬ SideExit g nodes a → a ∈ s.tried

/-- The search has gone on from `s` to `s'`. It has left marks only where it has come from the given
nodes, and the predecessors of whatever was tried on the way are dealt with. -/
structure Marks (g : Graph) (key : LoopId) (nodes : List Int) (origin : Int → Prop)
    (s s' : ClosingSearch) : Prop where
  tried : s.tried ⊆ s'.tried
  kept : ∀ x k, k ∈ s.closing.getD x [] → k ∈ s'.closing.getD x []
  sound : ∀ x k, k ∈ s'.closing.getD x [] → k ∈ s.closing.getD x [] ∨
    (k = key ∧ SideExit g nodes x ∧ ∃ a, origin a ∧
      Relation.ReflTransGen (GoesBack g key.start nodes) a x)
  preds : ∀ x ∈ s'.tried, x ∉ s.tried → ∀ b, g.Edge b x → Looked g key nodes s' b

theorem Looked.mono {s s' : ClosingSearch} (h : Looked g key nodes s a)
    (htried : s.tried ⊆ s'.tried)
    (hkept : ∀ x k, k ∈ s.closing.getD x [] → k ∈ s'.closing.getD x []) : Looked g key nodes s' a :=
  ⟨fun hexit => hkept a key (h.marked hexit), fun hno => htried (h.tried hno)⟩

namespace Marks

variable {origin origin' : Int → Prop} {s s₁ s₂ : ClosingSearch}

theorem refl (g : Graph) (key : LoopId) (nodes : List Int) (origin : Int → Prop)
    (s : ClosingSearch) : Marks g key nodes origin s s :=
  ⟨fun _ h => h, fun _ _ h => h, fun _ _ h => .inl h, fun _ h h' => absurd h h'⟩

theorem trans (h₁ : Marks g key nodes origin s s₁) (h₂ : Marks g key nodes origin s₁ s₂) :
    Marks g key nodes origin s s₂ where
  tried := List.Subset.trans h₁.tried h₂.tried
  kept x k hk := h₂.kept x k (h₁.kept x k hk)
  sound x k hk := (h₂.sound x k hk).elim (h₁.sound x k) .inr
  preds x hx hnew b hb := by
    by_cases hx₁ : x ∈ s₁.tried
    · exact (h₁.preds x hx₁ hnew b hb).mono h₂.tried h₂.kept
    · exact h₂.preds x hx hx₁ b hb

/-- What is reached from some nodes is reached from whatever leads back to these. -/
theorem back (h : Marks g key nodes origin s s₁)
    (hback : ∀ a, origin a → ∃ a', origin' a' ∧
      Relation.ReflTransGen (GoesBack g key.start nodes) a' a) :
    Marks g key nodes origin' s s₁ := by
  refine { h with sound := fun x k hk => (h.sound x k hk).imp_right ?_ }
  rintro ⟨hkey, hexit, a, ha, hway⟩
  obtain ⟨a', ha', hway'⟩ := hback a ha
  exact ⟨hkey, hexit, a', ha', hway'.trans hway⟩

/-- A search from one node after the other deals with all of them. -/
theorem foldlM (g : Graph) (key : LoopId) (nodes : List Int) (origin : Int → Prop)
    {f : ClosingSearch → Int → Except Fault ClosingSearch} :
    ∀ {l : List Int} {s s' : ClosingSearch},
    (∀ p ∈ l, ∀ s₁ s₂, s.tried ⊆ s₁.tried → f s₁ p = .ok s₂ →
      Marks g key nodes origin s₁ s₂ ∧ Looked g key nodes s₂ p) →
    l.foldlM f s = .ok s' → Marks g key nodes origin s s' ∧ ∀ p ∈ l, Looked g key nodes s' p := by
  intro l
  induction l with
  | nil =>
    intro s s' _ h
    obtain rfl := Except.ok.inj h
    exact ⟨refl g key nodes origin s, forall_mem_nil _⟩
  | cons p l ih =>
    intro s s' hstep h
    rw [foldlM_cons] at h
    obtain ⟨s₁, hfirst, hrest⟩ := Except.bind_eq_ok.mp h
    obtain ⟨h₁, hp⟩ := hstep p (.head _) s s₁ (List.Subset.refl _) hfirst
    obtain ⟨h₂, hl⟩ := ih (fun q hq s₂ s₃ hsub => hstep q (mem_cons_of_mem p hq) s₂ s₃
      (List.Subset.trans h₁.tried hsub)) hrest
    exact ⟨h₁.trans h₂, forall_mem_cons.mpr ⟨hp.mono h₂.tried h₂.kept, hl⟩⟩

end Marks

theorem mem_upsert_insert {closing : OrdMap Int (List LoopId)} {k : LoopId} :
    k ∈ (closing.upsert a [] (List.insert key)).getD x [] ↔ k ∈ closing.getD x [] ∨
      (k = key ∧ x = a) := by
  rw [OrdMap.getD_upsert]
  split
  · rename_i hax
    subst hax
    rw [mem_insert_iff, or_comm]
    simp
  · rename_i hax
    simp [Ne.symm hax]

/-- Leaving a mark at a node a way into which could have left the loop. -/
theorem Marks.mark (s : ClosingSearch) (hexit : SideExit g nodes a) :
    Marks g key nodes (· = a) s { s with closing := s.closing.upsert a [] (List.insert key) } where
  tried := List.Subset.refl _
  kept x k hk := mem_upsert_insert.mpr (.inl hk)
  sound x k hk := by
    refine (mem_upsert_insert.mp hk).imp_right ?_
    rintro ⟨rfl, rfl⟩
    exact ⟨rfl, hexit, x, rfl, .refl⟩
  preds x hx hnew := absurd hx hnew

theorem closingFrom_marks (hg : g.WellFormed) (key : LoopId) (nodes : List Int) :
    ∀ {fuel : Nat} {a : Int}
    {s s' : ClosingSearch}, key.start ∈ s.tried → closingFrom g key nodes fuel a s = .ok s' →
    Marks g key nodes (· = a) s s' ∧ Looked g key nodes s' a := by
  intro fuel
  induction fuel with
  | zero => intro a s s' _ h; cases h
  | succ fuel ih =>
    intro a s s' hstart h
    rw [closingFrom] at h
    cases hp : g.preds.get? a with
    | none =>
      rw [hp] at h
      cases h
    | some preds =>
      have hmem : ∀ p, p ∈ preds ↔ g.Edge p a := fun _ => Graph.mem_iff_edge hg hp
      obtain ⟨b, hb, hiff⟩ := hasSideExit_preds hg nodes hp
      rw [hp] at h
      simp only [hb, bind, Except.bind] at h
      cases b with
      | true =>
        obtain rfl := Except.ok.inj h
        have hexit : SideExit g nodes a := hiff.mp rfl
        exact ⟨Marks.mark s hexit, fun _ => mem_upsert_insert.mpr (.inr ⟨rfl, rfl⟩), fun hno =>
          absurd hexit hno⟩
      | false =>
        have hno : ¬ SideExit g nodes a := fun hexit => Bool.false_ne_true (hiff.mpr hexit)
        simp only [Bool.false_eq_true, if_false] at h
        split at h
        · rename_i htried
          obtain rfl := Except.ok.inj h
          exact ⟨Marks.refl g key nodes _ s, fun hexit => absurd hexit hno, fun _ => htried⟩
        · rename_i hnew
          have hne : a ≠ key.start := fun heq => hnew (heq ▸ hstart)
          obtain ⟨hmarks, hlooked⟩ := Marks.foldlM g key nodes (fun p => g.Edge p a)
            (s := { s with tried := a :: s.tried }) (fun p hp s₁ s₂ hsub hok => by
              obtain ⟨h₁, h₂⟩ := ih (hsub (mem_cons_of_mem a hstart)) hok
              exact ⟨h₁.back fun x hx => ⟨p, (hmem p).mp hp, hx ▸ .refl⟩, h₂⟩) h
          have hself : a ∈ s'.tried := hmarks.tried (.head _)
          refine ⟨⟨fun x hx => hmarks.tried (mem_cons_of_mem a hx), hmarks.kept, fun x k hk => ?_,
            fun x hx hx' c hc => ?_⟩, fun hexit => absurd hexit hno, fun _ => hself⟩
          · refine (hmarks.sound x k hk).imp_right ?_
            rintro ⟨hkey, hexit, p, hedge, hway⟩
            exact ⟨hkey, hexit, a, rfl, .head ⟨hne, hno, hedge⟩ hway⟩
          · by_cases hxa : x = a
            · exact hlooked c ((hmem c).mpr (hxa ▸ hc))
            · exact hmarks.preds x hx (fun hin => (mem_cons.mp hin).elim hxa hx') c hc

/-- A search marks for its loop the nodes that it comes to and a way into which could have left the
loop, and no others. -/
theorem mem_closingOf_iff (hg : g.WellFormed) {closing closing' : OrdMap Int (List LoopId)}
    {loop : LoopId × List Int} (h : closingOf g closing loop = .ok closing') (x : Int)
    (k : LoopId) :
    k ∈ closing'.getD x [] ↔
      k ∈ closing.getD x [] ∨ (k = loop.1 ∧ SideExit g loop.2 x ∧
        Closes g loop.1.start loop.2 x) := by
  unfold closingOf at h
  cases hpreds : g.preds.get? loop.1.start with
  | none =>
    rw [hpreds] at h
    cases h
  | some preds =>
    have hmem : ∀ p, p ∈ preds ↔ g.Edge p loop.1.start := fun _ => Graph.mem_iff_edge hg hpreds
    rw [hpreds] at h
    obtain ⟨s, hfold, hs⟩ := Except.bind_eq_ok.mp h
    obtain rfl := Except.ok.inj hs
    have hlatch : ∀ p, p ∈ preds.filter (· ∈ loop.2) ↔ p ∈ loop.2 ∧ g.Edge p loop.1.start := by
      intro p
      rw [mem_filter, hmem, decide_eq_true_eq, and_comm]
    obtain ⟨hmarks, hlooked⟩ := Marks.foldlM g loop.1 loop.2
      (fun p => p ∈ loop.2 ∧ g.Edge p loop.1.start) (fun p hp s₁ s₂ hsub hok => by
        obtain ⟨h₁, h₂⟩ := closingFrom_marks hg loop.1 loop.2 (hsub (.head _)) hok
        exact ⟨h₁.back fun y hy => ⟨p, (hlatch p).mp hp, hy ▸ .refl⟩, h₂⟩) hfold
    constructor
    · intro hk
      refine (hmarks.sound x k hk).imp_right ?_
      rintro ⟨hkey, hexit, latch, ⟨hin, hedge⟩, hway⟩
      exact ⟨hkey, hexit, latch, hin, hedge, hway⟩
    · rintro (hk | ⟨rfl, hexit, latch, hin, hedge, hway⟩)
      · exact hmarks.kept x k hk
      · -- Along the way back every node is dealt with.
        have hall : Looked g loop.1 loop.2 s x := by
          clear hexit
          induction hway with
          | refl => exact hlooked latch ((hlatch latch).mpr ⟨hin, hedge⟩)
          | @tail b c _ hback ih =>
            obtain ⟨hne, hno, hbc⟩ := hback
            exact hmarks.preds b (ih.tried hno) (fun hb => hne (mem_singleton.mp hb)) c hbc
        exact hall.marked hexit

theorem mem_foldlM_closingOf_iff (hg : g.WellFormed) : ∀ {l : List (LoopId × List Int)}
    {closing closing' : OrdMap Int (List LoopId)}, l.foldlM (closingOf g) closing = .ok closing' →
    ∀ (x : Int) (k : LoopId), k ∈ closing'.getD x [] ↔ k ∈ closing.getD x [] ∨
      ∃ e ∈ l, k = e.1 ∧ SideExit g e.2 x ∧ Closes g e.1.start e.2 x := by
  intro l
  induction l with
  | nil =>
    intro closing closing' h x k
    obtain rfl := Except.ok.inj h
    simp
  | cons e l ih =>
    intro closing closing' h x k
    rw [foldlM_cons] at h
    obtain ⟨closing₁, hfirst, hrest⟩ := Except.bind_eq_ok.mp h
    rw [ih hrest x k, mem_closingOf_iff hg hfirst x k, or_assoc]
    simp only [mem_cons, exists_eq_or_imp]

/-! ## Paths from a marked node -/

/-- An edge from a node all edges of which stay in the loop. -/
def Stays (g : Graph) (nodes : List Int) (a b : Int) : Prop :=
  g.Edge a b ∧ ∀ q, g.Edge a q → q ∈ nodes

/-- From where the search comes to, a way leads to an edge back to the start, and leaves the loop
nowhere before that. -/
theorem Closes.leads_back (h : Closes g start nodes a) :
    ∃ latch ∈ nodes, g.Edge latch start ∧ Relation.ReflTransGen (Stays g nodes) a latch := by
  obtain ⟨latch, hin, hedge, hway⟩ := h
  refine ⟨latch, hin, hedge, ?_⟩
  induction hway with
  | refl => exact .refl
  | @tail b c _ hback ih =>
    obtain ⟨-, hno, hcb⟩ := hback
    refine .head ⟨hcb, fun q hq => ?_⟩ ih
    by_contra hout
    exact hno ⟨c, q, hcb, hq, hout⟩

/-- The loop is entered only at its start. -/
def EnteredAtStart (g : Graph) (start : Int) (nodes : List Int) : Prop :=
  ∀ a b, g.Edge a b → b ∈ nodes → b ≠ start → a ∈ nodes

/-- In a loop that is entered only at its start the search does not leave the loop. -/
theorem Closes.mem (h : Closes g start nodes a) (hin : EnteredAtStart g start nodes) :
    a ∈ nodes := by
  obtain ⟨latch, hlatch, -, hway⟩ := h
  induction hway with
  | refl => exact hlatch
  | @tail b c _ hback ih => exact hin c b hback.2.2 ih hback.1

/-- A node from which one is sure to return: it is in the loop, and every path from it that leaves
the loop passes through the start before. -/
def Returns (g : Graph) (start : Int) (nodes : List Int) (a : Int) : Prop :=
  a ∈ nodes ∧ ∀ path : List Int, (a :: path).IsChain g.Edge → (∃ q ∈ path, q ∉ nodes) →
    start ∈ (a :: path).takeWhile (· ∈ nodes)

/-- An edge inside the loop that does not leave the start. -/
def Inward (g : Graph) (start : Int) (nodes : List Int) (a b : Int) : Prop :=
  g.Edge a b ∧ a ≠ start ∧ b ∈ nodes

/-- The way along inward edges as a path. -/
theorem exists_path_of_inward (hway : Relation.ReflTransGen (Inward g start nodes) a x)
    (ha : a ∈ nodes) (hx : x ≠ start) :
    ∃ path : List Int, (a :: path).IsChain g.Edge ∧ (a :: path).getLast? = some x ∧
      ∀ y ∈ a :: path, y ∈ nodes ∧ y ≠ start := by
  induction hway using Relation.ReflTransGen.head_induction_on with
  | refl => exact ⟨[], .singleton _, rfl, fun y hy => mem_singleton.mp hy ▸ ⟨ha, hx⟩⟩
  | @head a b hedge _ ih =>
    obtain ⟨path, hchain, hlast, hall⟩ := ih hedge.2.2
    refine ⟨b :: path, isChain_cons_cons.mpr ⟨hedge.1, hchain⟩, ?_,
      forall_mem_cons.mpr ⟨⟨ha, hedge.2.1⟩, hall⟩⟩
    rw [List.getLast?_cons_cons]
    exact hlast

/-- One is sure to return from a node of the loop exactly if no edge leaves the loop ahead of it, on
this side of the start. -/
theorem returns_iff : Returns g start nodes a ↔
    a ∈ nodes ∧ ∀ x, Relation.ReflTransGen (Inward g start nodes) a x → x ≠ start →
      ∀ q, g.Edge x q → q ∈ nodes := by
  refine and_congr_right fun ha => ⟨fun hreturns x hway hx q hq => ?_, fun hstays => ?_⟩
  · by_contra hout
    obtain ⟨path, hchain, hlast, hall⟩ := exists_path_of_inward hway ha hx
    have hpath : ((a :: path) ++ [q]).IsChain g.Edge := by
      refine isChain_append.mpr ⟨hchain, .singleton q, fun y hy z hz => ?_⟩
      obtain rfl : x = y := Option.some.inj (hlast.symm.trans hy)
      obtain rfl : q = z := Option.some.inj hz
      exact hq
    have hstart := hreturns (path ++ [q]) hpath ⟨q, mem_append_right _ (.head _), hout⟩
    have htake : ((a :: path) ++ [q]).takeWhile (· ∈ nodes) = a :: path := by
      rw [takeWhile_append_of_pos fun y hy => decide_eq_true (hall y hy).1,
        takeWhile_cons_of_neg (by simpa using hout), append_nil]
    rw [← cons_append, htake] at hstart
    exact (hall start hstart).2 rfl
  · intro path
    induction path generalizing a with
    | nil =>
      rintro - ⟨q, hq, -⟩
      cases hq
    | cons b path ih =>
      rintro hchain ⟨q, hq, hout⟩
      rw [takeWhile_cons_of_pos (by simpa using ha)]
      by_cases hstart : a = start
      · exact hstart ▸ .head _
      · -- The next node is in the loop too, and what is ahead of it is ahead of this one.
        obtain ⟨hedge, hrest⟩ := isChain_cons_cons.mp hchain
        have hb : b ∈ nodes := hstays a .refl hstart b hedge
        refine mem_cons_of_mem a (ih hb (fun x hway => hstays x (.head ⟨hedge, hstart, hb⟩ hway))
          hrest ⟨q, ?_, hout⟩)
        exact (mem_cons.mp hq).resolve_left fun heq => hout (heq ▸ hb)

end LoopNest

open LoopNest

theorem Graph.HasNest.closing_eq {g : Graph} {nest : LoopNest} (hg : g.WellFormed)
    (h : g.HasNest nest) : nest.tables.all.entries.foldlM (closingOf g) ∅ = .ok nest.closing := by
  obtain ⟨t, equiv, spurious, hfinds, hnest⟩ := h
  obtain ⟨-, -, rfl⟩ := hfinds.sound hg
  obtain ⟨closing, hclosing, rfl⟩ := closing_of_assemble hnest
  exact hclosing

/-- In any nest of a function, a node is marked for a loop exactly if a way into it could have left
the loop and the search back from the start comes there. From a marked node a way leads back to the
start that leaves the loop nowhere but perhaps at its last node. If the loop is entered only at its
start, the marked node is in the loop. One is sure to return from it exactly if it is in the loop
and no edge leaves the loop ahead of it. -/
theorem Graph.closing_marks_iff {p p' : Program} (hp : p.Keyed) {entry : Int} {g₀ g : Graph}
    (hfound : Graph.discover entry p = .ok (some g₀) p') (hblocks : g₀.blocks p.arch = .ok g)
    {nest : LoopNest} (hnest : g.HasNest nest) (a : Int) (k : LoopId) :
    (k ∈ nest.closing.getD a [] ↔
      ∃ nodes, nest.tables.all.get? k = some nodes ∧ SideExit g nodes a ∧
        Closes g k.start nodes a) ∧
    ∀ nodes, k ∈ nest.closing.getD a [] → nest.tables.all.get? k = some nodes →
      (∃ latch ∈ nodes, g.Edge latch k.start ∧ Relation.ReflTransGen (Stays g nodes) a latch) ∧
      (EnteredAtStart g k.start nodes → a ∈ nodes) ∧
      (Returns g k.start nodes a ↔
        a ∈ nodes ∧
          ∀ x, Relation.ReflTransGen (Inward g k.start nodes) a x → x ≠ k.start → ∀ q, g.Edge x q →
            q ∈ nodes) := by
  obtain ⟨hwf, -, -⟩ := Graph.wellFormed_of_blocks hp hfound hblocks
  obtain ⟨hsound, -⟩ := hnest.sound hwf
  have hmarks : k ∈ nest.closing.getD a [] ↔
      ∃ nodes, nest.tables.all.get? k = some nodes ∧ SideExit g nodes a ∧
      Closes g k.start nodes a := by
    rw [mem_foldlM_closingOf_iff hwf (hnest.closing_eq hwf) a k]
    constructor
    · rintro (hnone | ⟨e, he, rfl, hexit, hcloses⟩)
      · cases hnone
      · exact ⟨e.2, OrdMap.get?_of_mem_entries hsound.all_nodup he, hexit, hcloses⟩
    · rintro ⟨nodes, hnodes, hexit, hcloses⟩
      exact .inr ⟨(k, nodes), OrdMap.mem_entries_of_get? hnodes, rfl, hexit, hcloses⟩
  refine ⟨hmarks, fun nodes hmark hnodes => ?_⟩
  obtain ⟨nodes', hnodes', -, hcloses⟩ := hmarks.mp hmark
  obtain rfl : nodes = nodes' := Option.some.inj (hnodes.symm.trans hnodes')
  exact ⟨hcloses.leads_back, hcloses.mem, returns_iff⟩

/-- In a loop that is left at its start, the jump back is marked, and one is sure to return from
it. -/
theorem Graph.closing_marks_left_at_start :
    ∃ (p' : Program) (g₀ g : Graph) (nest : LoopNest) (nodes : List Int),
      Graph.discover 0 (OneByte.program [.run, .fork 3, .jump 1, .ret]) = .ok (some g₀) p' ∧
        g₀.blocks .x86 = .ok g ∧
      g.loopNest = .ok nest ∧ ⟨0, 1⟩ ∈ nest.closing.getD 2 [] ∧
      nest.tables.all.get? ⟨0, 1⟩ = some nodes ∧ Returns g 1 nodes 2 := by
  have hval : (OneByte.nested? [.run, .fork 3, .jump 1, .ret]).map (fun r =>
      (r.nest.closing.getD 2 [], r.nest.tables.all.get? ⟨0, 1⟩, r.graph.next 2)) =
      some ([⟨0, 1⟩], some [2, 1], [1]) := by
    decide +kernel
  obtain ⟨r, hr, hval⟩ := Option.map_eq_some_iff.mp hval
  obtain ⟨hclosing, hval⟩ := Prod.mk.inj hval
  obtain ⟨hnodes, hnext⟩ := Prod.mk.inj hval
  obtain ⟨p', g₀, hfound, hblocks, -, hnest⟩ := OneByte.exists_of_nested? hr
  have hmark : (⟨0, 1⟩ : LoopId) ∈ r.nest.closing.getD 2 [] := hclosing ▸ .head _
  obtain ⟨-, hmarked⟩ := Graph.closing_marks_iff (OneByte.program_keyed _) hfound hblocks
    (Graph.hasNest_of_loopNest hnest) 2 ⟨0, 1⟩
  obtain ⟨-, -, hiff⟩ := hmarked _ hmark hnodes
  have hedge : ∀ q, r.graph.Edge 2 q → q = 1 := fun q hq => mem_singleton.mp (hnext ▸ hq)
  refine ⟨p', g₀, r.graph, r.nest, _, hfound, hblocks, hnest, hmark, hnodes,
    hiff.mpr ⟨by decide, fun x hway hx q hq => ?_⟩⟩
  -- The only edge from the jump leads to the start.
  have hself : x = 2 := by
    rcases hway.cases_head with h | ⟨y, hfirst, hrest⟩
    · exact h.symm
    · obtain rfl := hedge y hfirst.1
      rcases hrest.cases_head with h | ⟨z, hsecond, -⟩
      · exact absurd h.symm hx
      · exact absurd rfl hsecond.2.1
  rw [hedge q (hself ▸ hq)]
  decide

/-- A loop that can be left both before its last node and from there. The last node is marked, and
yet one can leave the loop from it. -/
theorem Graph.closing_mark_leaves :
    ∃ (p' : Program) (g₀ g : Graph) (nest : LoopNest) (nodes : List Int),
      Graph.discover 0 (OneByte.program [.run, .run, .fork 5, .fork 1, .run, .ret]) =
        .ok (some g₀) p' ∧
      g₀.blocks .x86 = .ok g ∧ g.loopNest = .ok nest ∧ ⟨0, 1⟩ ∈ nest.closing.getD 3 [] ∧
      nest.tables.all.get? ⟨0, 1⟩ = some nodes ∧ ¬ Returns g 1 nodes 3 := by
  have hval : (OneByte.nested? [.run, .run, .fork 5, .fork 1, .run, .ret]).map (fun r =>
      (r.nest.closing.getD 3 [], r.nest.tables.all.get? ⟨0, 1⟩, r.graph.next 3)) =
      some ([⟨0, 1⟩], some [2, 3, 1], [4, 1]) := by
    decide +kernel
  obtain ⟨r, hr, hval⟩ := Option.map_eq_some_iff.mp hval
  obtain ⟨hclosing, hval⟩ := Prod.mk.inj hval
  obtain ⟨hnodes, hnext⟩ := Prod.mk.inj hval
  obtain ⟨p', g₀, hfound, hblocks, -, hnest⟩ := OneByte.exists_of_nested? hr
  refine ⟨p', g₀, r.graph, r.nest, _, hfound, hblocks, hnest, hclosing ▸ .head _, hnodes,
    fun hreturns => ?_⟩
  have hedge : r.graph.Edge 3 4 := by
    rw [Graph.Edge, hnext]
    exact (.head _)
  exact absurd ((returns_iff.mp hreturns).2 3 .refl (by decide) 4 hedge) (by decide)

end Decompiler
