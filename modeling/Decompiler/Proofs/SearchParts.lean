import Decompiler.Proofs.Paths
import Decompiler.Proofs.SearchSteps
/-!
# What the parts of a search step do

One lemma for each part of a step of the search for loops, whatever the order in which the step goes
through a set: an edge that arrives (`arrive_spec`), a node that is entered (`enter_spec`), the
nodes that go on (`Releases.frees`), and one search for loops (`Searches.searched`). What the search
preserves is derived from these and never from the parts themselves.
-/

namespace Decompiler.Exploration

open List

variable {around ready : List Int}

variable {g : Graph} {addr : Int} {region : Region} {tried found : List Int} {waiting' : Waiting}

/-! ## Walking -/

theorem mem_distinct {α : Type} [DecidableEq α] {l : List α} {a : α} : a ∈ distinct l ↔ a ∈ l := by
  induction l with
  | nil => simp [distinct]
  | cons b rest ih =>
    have hcons : distinct (b :: rest) = (distinct rest).insert b := rfl
    rw [hcons, mem_insert_iff, mem_cons, ih]

theorem nodup_distinct {α : Type} [DecidableEq α] (l : List α) : (distinct l).Nodup := by
  induction l with
  | nil => exact nodup_nil
  | cons b rest ih => exact ih.insert

variable {w w' : Walk} {a : Int} {waiting : Waiting}

/-- An edge that arrives is no longer waited for; a node that did not wait waits for all its
predecessors but this. -/
theorem arrive_spec {source : Option Int} (h : arrive g w source addr = .ok w') :
    ∃ missing, w' = { w with waiting := w.waiting.insert addr missing } ∧
      ∀ p, p ∈ missing ↔ p ∈ w.waiting.getD addr (g.preds.getD addr []) ∧ some p ≠ source := by
  unfold arrive at h
  cases hw : w.waiting.get? addr with
  | some missing =>
    simp only [hw] at h
    refine ⟨_, (Except.ok.inj h).symm, fun p => ?_⟩
    rw [OrdMap.getD_of_get? hw]
    simp
  | none =>
    simp only [hw] at h
    cases source with
    | none => cases h
    | some q =>
      simp only at h
      split at h
      · refine ⟨_, (Except.ok.inj h).symm, fun p => ?_⟩
        rw [OrdMap.getD_of_not_mem (OrdMap.get?_eq_none.mp hw), (nodup_distinct _).mem_erase_iff,
          mem_distinct, and_comm]
        simp
      · cases h

/-- A node is entered once, and then its edges are on the stack, except for those to a loop
around. -/
structure Enters (g : Graph) (around : List Int) (addr : Int) (w w' : Walk) : Prop where
  fresh : addr ∉ w.visited
  visited : w'.visited = addr :: w.visited
  done : w'.done = w.done
  waiting : w'.waiting = w.waiting
  stack : ∀ e, e ∈ w'.stack ↔ e ∈ w.stack ∨ ∃ n, g.Edge addr n ∧ n ∉ around ∧ e = (some addr, n)
  grows : w'.stack.length ≤ (g.next addr).length + w.stack.length

theorem enter_spec {entered : Bool} (h : enter g around w addr = (entered, w')) :
    (addr ∈ w.visited ∧ entered = false ∧ w' = w) ∨ Enters g around addr w w' := by
  unfold enter at h
  split at h
  · rename_i hin
    obtain ⟨rfl, rfl⟩ := Prod.mk.inj h
    exact .inl ⟨hin, rfl, rfl⟩
  · rename_i hnot
    obtain ⟨-, rfl⟩ := Prod.mk.inj h
    refine .inr ⟨hnot, rfl, rfl, rfl, fun e => ?_, by simp [length_filter_le]⟩
    simp only [mem_append, mem_reverse, mem_map, mem_filter, decide_eq_true_eq, Graph.Edge]
    constructor
    · rintro (⟨n, ⟨hn, hout⟩, rfl⟩ | he)
      · exact .inr ⟨n, hn, hout, rfl⟩
      · exact .inl he
    · rintro (he | ⟨n, hn, hout, rfl⟩)
      · exact .inr he
      · exact .inl ⟨n, ⟨hn, hout⟩, rfl⟩

theorem mustWait_eq_true (h : mustWait g region w addr = true) : addr ∉ w.done := by
  cases hp : g.preds.get? addr with
  | none => simp [mustWait, hp] at h
  | some preds => simp only [mustWait, hp, Bool.and_eq_true, decide_eq_true_eq] at h; exact h.1

/-- Where a walk does not stop, the node is done, or it has at most one predecessor and lies in the
region. -/
theorem mustWait_eq_false {preds : List Int} (hp : g.preds.get? addr = some preds)
    (hdone : addr ∉ w.done) (h : mustWait g region w addr = false) :
    preds.length ≤ 1 ∧ region.holds addr = true := by
  simp only [mustWait, hp, hdone, not_false_eq_true, decide_true, Bool.true_and,
    Bool.or_eq_false_iff, decide_eq_false_iff_not, Bool.not_eq_false'] at h
  exact ⟨by omega, h.2⟩

/-! ## Going on -/

/-- Some nodes have stopped waiting and are done, and each is next on the stack. -/
structure Frees (gone : Int → Prop) (w w' : Walk) : Prop where
  visited : w'.visited = w.visited
  done : ∀ a, a ∈ w'.done ↔ a ∈ w.done ∨ gone a
  stack : ∀ e, e ∈ w'.stack ↔ e ∈ w.stack ∨ e.1 = none ∧ gone e.2
  kept : ∀ a, ¬ gone a → w'.waiting.get? a = w.waiting.get? a
  freed : ∀ a, gone a → w'.waiting.get? a = none
  done_nodup : w.done.Nodup → w'.done.Nodup
  keys_nodup : w.waiting.keys.Nodup → w'.waiting.keys.Nodup

theorem Frees.refl {gone : Int → Prop} (h : ∀ a, ¬ gone a) (w : Walk) : Frees gone w w where
  visited := rfl
  done a := by simp [h a]
  stack e := by simp [h e.2]
  kept a _ := rfl
  freed a ha := absurd ha (h a)
  done_nodup := id
  keys_nodup := id

theorem Frees.trans {gone₁ gone₂ gone : Int → Prop} {w₁ w₂ w₃ : Walk} (h₁ : Frees gone₁ w₁ w₂)
    (h₂ : Frees gone₂ w₂ w₃) (hgone : ∀ a, gone a ↔ gone₁ a ∨ gone₂ a) : Frees gone w₁ w₃ where
  visited := h₂.visited.trans h₁.visited
  done a := by rw [h₂.done, h₁.done, hgone, or_assoc]
  stack e := by rw [h₂.stack, h₁.stack, hgone, or_assoc, ← and_or_left]
  kept a ha := by
    rw [hgone, not_or] at ha
    rw [h₂.kept a ha.2, h₁.kept a ha.1]
  freed a ha := by
    by_cases ha₂ : gone₂ a
    · exact h₂.freed a ha₂
    · rw [h₂.kept a ha₂]
      exact h₁.freed a (((hgone a).mp ha).resolve_right ha₂)
  done_nodup h := h₂.done_nodup (h₁.done_nodup h)
  keys_nodup h := h₂.keys_nodup (h₁.keys_nodup h)

section

variable {gone : Int → Prop} {w w' : Walk}

theorem Frees.mem_keys (h : Frees gone w w') {a : Int} (ha : a ∈ w'.waiting.keys) :
    a ∈ w.waiting.keys ∧ ¬ gone a := by
  obtain ⟨missing, hmissing⟩ := OrdMap.mem_keys.mp ha
  by_cases hgone : gone a
  · rw [h.freed a hgone] at hmissing
    cases hmissing
  · rw [h.kept a hgone] at hmissing
    exact ⟨OrdMap.mem_keys_of_get? hmissing, hgone⟩

theorem Frees.done_subset (h : Frees gone w w') : w.done ⊆ w'.done :=
  fun a ha => (h.done a).mpr (.inl ha)

end

theorem letGo_frees (region : Region) (w : Walk) (e : Int × List Int) :
    Frees (fun a => region.holds a = true ∧ (a, []) = e) w (letGo region w e) := by
  obtain ⟨addr, missing⟩ := e
  unfold letGo
  split
  · rename_i hgo
    simp only [Bool.and_eq_true, List.isEmpty_iff] at hgo
    obtain ⟨hregion, rfl⟩ := hgo
    have hgone : ∀ a, (region.holds a = true ∧ (a, ([] : List Int)) = (addr, [])) ↔ a = addr := by
      intro a
      constructor
      · rintro ⟨-, h⟩
        exact (Prod.mk.inj h).1
      · rintro rfl
        exact ⟨hregion, rfl⟩
    refine ⟨rfl, fun a => ?_, fun e => ?_, fun a ha => ?_, fun a ha => ?_, fun h => h.insert,
      fun h => OrdMap.nodup_keys_erase h addr⟩
    · rw [hgone, mem_insert_iff, or_comm]
    · rw [hgone, mem_cons, or_comm, Prod.ext_iff]
    · rw [hgone] at ha
      exact OrdMap.get?_erase_of_ne _ (Ne.symm ha)
    · rw [hgone] at ha
      rw [ha]
      exact OrdMap.get?_erase_self _ _
  · rename_i hstay
    refine Frees.refl (fun a ha => hstay ?_) w
    obtain ⟨hregion, heq⟩ := ha
    obtain ⟨rfl, rfl⟩ := Prod.mk.inj heq
    simpa using hregion

theorem foldl_letGo_frees (region : Region) : ∀ (l : List (Int × List Int)) (w : Walk),
    Frees (fun a => region.holds a = true ∧ (a, []) ∈ l) w (l.foldl (letGo region) w) := by
  intro l
  induction l with
  | nil => intro w; exact Frees.refl (fun a ha => by cases ha.2) w
  | cons e l ih =>
    intro w
    refine (letGo_frees region w e).trans (ih _) fun a => ?_
    rw [mem_cons, and_or_left]

theorem releases_release (region : Region) (w : Walk) : Releases region w (release region w) :=
  ⟨w.waiting.entries, .refl _, rfl⟩

/-- In whatever order nodes go on, those do that lie in the region and wait for nothing. -/
theorem Releases.frees (h : Releases region w w') :
    Frees (fun a => region.holds a = true ∧ (a, []) ∈ w.waiting.entries) w w' := by
  obtain ⟨order, hperm, rfl⟩ := h
  have hfrees := foldl_letGo_frees region order w
  simpa only [hperm.mem_iff] using hfrees

/-! ## Walks as they come about -/

/-- An address that a walk can come to: the entry or the end of an edge. -/
def Place (g : Graph) (a : Int) : Prop := a = g.entry ∨ ∃ p, g.Edge p a

/-- The entry and the ends of all edges. -/
def places (g : Graph) : List Int := g.entry :: g.succs.values.flatten

theorem Place.mem_places (h : Place g a) : a ∈ places g := by
  rcases h with rfl | ⟨p, hp⟩
  · exact (.head _)
  · obtain ⟨l, hs, hp⟩ := OrdMap.exists_of_mem_getD hp
    have hl : l ∈ g.succs.values := mem_map_of_mem (OrdMap.mem_entries_of_get? hs)
    exact .tail _ (mem_flatten.mpr ⟨l, hl, hp⟩)

/-- On a well formed graph a walk can come to every node. -/
theorem place_iff (hg : g.WellFormed) : Place g a ↔ a ∈ g.nodes.keys := by
  constructor
  · rintro (rfl | ⟨p, hp⟩)
    · exact hg.entry_mem
    · exact hg.closed p a hp
  · intro ha
    rcases (hg.reachable a ha).cases_tail with h | ⟨p, -, hp⟩
    · exact .inl h
    · exact .inr ⟨p, hp⟩

/-- A list of places, each once. -/
def Placed (g : Graph) (l : List Int) : Prop := l.Nodup ∧ ∀ a ∈ l, Place g a

section

variable {l : List Int} {a : Int}

theorem Placed.nil (g : Graph) : Placed g [] := ⟨nodup_nil, forall_mem_nil _⟩

theorem Placed.cons (h : Placed g l) (hnew : a ∉ l) (ha : Place g a) : Placed g (a :: l) :=
  ⟨nodup_cons.mpr ⟨hnew, h.1⟩, forall_mem_cons.mpr ⟨ha, h.2⟩⟩

theorem Placed.insert (h : Placed g l) (ha : Place g a) : Placed g (l.insert a) := by
  by_cases hin : a ∈ l
  · rwa [insert_of_mem hin]
  · rw [insert_of_not_mem hin]
    exact h.cons hin ha

theorem Placed.length_le (h : Placed g l) : l.length ≤ (places g).length :=
  (h.1.subperm fun a ha => (h.2 a ha).mem_places).length_le

theorem Placed.length_le_size (hg : g.WellFormed) (h : Placed g l) : l.length ≤ g.nodes.size := by
  rw [← OrdMap.length_keys]
  exact (h.1.subperm fun a ha => (place_iff hg).mp (h.2 a ha)).length_le

end

/-- Nodes wait only where an edge leads, and none waits that is done. -/
def Waits (g : Graph) (done : List Int) (waiting : Waiting) : Prop :=
  ∀ a ∈ waiting.keys, a ∉ done ∧ ∃ p, g.Edge p a

/-- A walk as it comes about: what is on the stack is an edge of the graph or leads to a node that
is done. -/
structure Walk.Fits (g : Graph) (w : Walk) : Prop where
  stack : ∀ e ∈ w.stack, (∃ p, e.1 = some p ∧ g.Edge p e.2) ∨ (e.1 = none ∧ e.2 ∈ w.done)
  visited : Placed g w.visited
  done : Placed g w.done
  waiting : Waits g w.done w.waiting

/-- The walk along the edges from a node. -/
theorem Walk.Fits.start (source : Int) {visited done : List Int} (hvisited : Placed g visited)
    (hdone : Placed g done) (hwaiting : Waits g done waiting) :
    Walk.Fits g ⟨((g.next source).map fun n => (some source, n)).reverse, visited, done,
      waiting⟩ := by
  refine ⟨fun e he => ?_, hvisited, hdone, hwaiting⟩
  obtain ⟨n, hn, rfl⟩ := mem_map.mp (mem_reverse.mp he)
  exact .inl ⟨source, rfl, hn⟩

section

variable {w w' : Walk} {e : Option Int × Int} {rest : List (Option Int × Int)}

theorem Walk.Fits.place (h : w.Fits g) (he : e ∈ w.stack) : Place g e.2 := by
  rcases h.stack e he with ⟨p, -, hedge⟩ | ⟨-, hdone⟩
  · exact .inr ⟨p, hedge⟩
  · exact h.done.2 e.2 hdone

theorem Walk.Fits.pop (h : w.Fits g) (hstack : w.stack = e :: rest) :
    Walk.Fits g { w with stack := rest } :=
  { h with stack := fun e' he' => h.stack e' (hstack ▸ mem_cons_of_mem e he') }

/-- What is not done is at the end of an edge, and may wait. -/
theorem Walk.Fits.wait (h : w.Fits g) (hstack : w.stack = e :: rest) (hnew : e.2 ∉ w.done)
    (missing : List Int) :
    Walk.Fits g { w with stack := rest, waiting := w.waiting.insert e.2 missing } := by
  refine { h.pop hstack with waiting := fun a ha => ?_ }
  rcases OrdMap.mem_keys_insert.mp ha with rfl | ha
  · rcases h.stack e (hstack ▸ .head _) with ⟨p, -, hedge⟩ | ⟨-, hdone⟩
    · exact ⟨hnew, p, hedge⟩
    · exact absurd hdone hnew
  · exact h.waiting a ha

theorem Walk.Fits.enters (h : w.Fits g) (ha : Place g addr) (hnew : Enters g around addr w w') :
    w'.Fits g where
  stack e he := by
    rw [hnew.done]
    rcases (hnew.stack e).mp he with he | ⟨n, hn, -, rfl⟩
    · exact h.stack e he
    · exact .inl ⟨addr, rfl, hn⟩
  visited := hnew.visited ▸ h.visited.cons hnew.fresh ha
  done := hnew.done ▸ h.done
  waiting := by
    rw [hnew.done, hnew.waiting]
    exact h.waiting

/-- Nodes go on that have waited: they were not done. If there is an edge to follow then, more is
done than before. -/
theorem Walk.Fits.releases (h : w.Fits g) (hrel : Releases region w w') :
    w'.Fits g ∧ w.done.length ≤ w'.done.length ∧
      (w.stack = [] → w'.stack ≠ [] → w.done.length < w'.done.length) := by
  have hfrees := hrel.frees
  have hgone : ∀ a, region.holds a = true ∧ (a, []) ∈ w.waiting.entries → a ∈ w.waiting.keys :=
    fun a ha => mem_map_of_mem (f := Prod.fst) ha.2
  have hsub := hfrees.done_subset
  refine ⟨⟨fun e he => ?_, hfrees.visited ▸ h.visited, ⟨hfrees.done_nodup h.done.1, fun a ha => ?_⟩,
    fun a ha => ?_⟩, (h.done.1.subperm hsub).length_le, fun hstack hne => ?_⟩
  · rcases (hfrees.stack e).mp he with he | ⟨hnone, hwent⟩
    · exact (h.stack e he).imp_right fun hdone => ⟨hdone.1, hsub hdone.2⟩
    · exact .inr ⟨hnone, (hfrees.done e.2).mpr (.inr hwent)⟩
  · rcases (hfrees.done a).mp ha with ha | ha
    · exact h.done.2 a ha
    · exact .inr (h.waiting a (hgone a ha)).2
  · obtain ⟨hwaited, hstays⟩ := hfrees.mem_keys ha
    obtain ⟨hundone, hedge⟩ := h.waiting a hwaited
    exact ⟨fun hin => ((hfrees.done a).mp hin).elim hundone hstays, hedge⟩
  · obtain ⟨e, he⟩ := exists_mem_of_ne_nil _ hne
    obtain ⟨-, hwent⟩ := ((hfrees.stack e).mp he).resolve_left (by rw [hstack]; exact not_mem_nil)
    have hmore : e.2 :: w.done ⊆ w'.done :=
      cons_subset.mpr ⟨(hfrees.done e.2).mpr (.inr hwent), hsub⟩
    have hnodup := nodup_cons.mpr ⟨(h.waiting e.2 (hgone e.2 hwent)).1, h.done.1⟩
    exact (hnodup.subperm hmore).length_le

end

/-! ## Searching -/

/-- Addresses were tried as starts of loops: those found were not known, and each is there with the
nodes on paths back to it; one that was tried and is not known has no such paths. -/
structure Detects (g : Graph) (f : Frame) (tried : List Int) (t : LoopTables) (found : List Int)
    (t' : LoopTables) : Prop where
  sub : ∀ a ∈ found, a ∈ tried
  nodup : found.Nodup
  fresh : ∀ a ∈ found, (⟨f.entry, a⟩ : LoopId) ∉ t.own.keys ∧ a ∉ f.around
  round : ∀ a ∈ found, g.succs.paths a a f.around ≠ []
  new : ∀ a ∈ found, t'.own.get? ⟨f.entry, a⟩ = some (g.succs.paths a a f.around)
  kept : ∀ k, (k.outer = f.entry → k.start ∉ found) → t'.own.get? k = t.own.get? k
  complete : ∀ a ∈ tried, f.region.holds a = true →
    (⟨f.entry, a⟩ : LoopId) ∈ t'.own.keys ∨ g.succs.paths a a f.around = []
  own_nodup : t.own.keys.Nodup → t'.own.keys.Nodup
  rest : t' = { t with own := t'.own }

variable {f : Frame} {t t' : LoopTables}

theorem Detects.nil (g : Graph) (f : Frame) (t : LoopTables) : Detects g f [] t [] t where
  sub := forall_mem_nil _
  nodup := nodup_nil
  fresh := forall_mem_nil _
  round := forall_mem_nil _
  new := forall_mem_nil _
  kept _ _ := rfl
  complete := forall_mem_nil _
  own_nodup := id
  rest := rfl

/-- A loop that is known after a search was found by it or was known. -/
theorem Detects.get?_own (h : Detects g f tried t found t') {k : LoopId} {nodes : List Int}
    (hk : t'.own.get? k = some nodes) :
    (k.outer = f.entry ∧ k.start ∈ found ∧ nodes = g.succs.paths k.start k.start f.around) ∨
      t.own.get? k = some nodes := by
  by_cases hnew : k.outer = f.entry ∧ k.start ∈ found
  · have hkey : k = ⟨f.entry, k.start⟩ := by rw [← hnew.1]
    rw [hkey, h.new k.start hnew.2] at hk
    exact .inl ⟨hnew.1, hnew.2, (Option.some.inj hk).symm⟩
  · exact .inr ((h.kept k fun hout hin => hnew ⟨hout, hin⟩).symm.trans hk)

/-- The loops that are known after a search. -/
theorem Detects.mem_own (h : Detects g f tried t found t') (k : LoopId) :
    k ∈ t'.own.keys ↔ k ∈ t.own.keys ∨ k.outer = f.entry ∧ k.start ∈ found := by
  by_cases hk : k.outer = f.entry ∧ k.start ∈ found
  · have hkey : k = ⟨f.entry, k.start⟩ := by rw [← hk.1]
    have hnew := h.new k.start hk.2
    rw [← hkey] at hnew
    exact ⟨fun _ => .inr hk, fun _ => OrdMap.mem_keys_of_get? hnew⟩
  · have hkept := h.kept k fun hout hin => hk ⟨hout, hin⟩
    rw [OrdMap.mem_keys, OrdMap.mem_keys, hkept]
    exact ⟨.inl, fun h => h.resolve_right hk⟩

/-- Trying one address: it is passed over for a reason, or it is found. -/
theorem tryStart_cases (f : Frame) (t : LoopTables) (starts : List Int) (addr : Int) :
    (tryStart g f.entry f.around f.region (starts, t) addr = (starts, t) ∧
      (f.region.holds addr = true →
        (⟨f.entry, addr⟩ : LoopId) ∈ t.own.keys ∨ g.succs.paths addr addr f.around = [])) ∨
    ((⟨f.entry, addr⟩ : LoopId) ∉ t.own.keys ∧ addr ∉ f.around ∧
      g.succs.paths addr addr f.around ≠ [] ∧
      tryStart g f.entry f.around f.region (starts, t) addr = (starts ++ [addr],
        { t with own := t.own.insert ⟨f.entry, addr⟩ (g.succs.paths addr addr f.around) })) := by
  unfold tryStart
  by_cases hregion : f.region.holds addr = true
  · by_cases hknown : (⟨f.entry, addr⟩ : LoopId) ∈ t.own.keys
    · exact .inl ⟨by simp [OrdMap.contains_iff.mpr hknown], fun _ => .inl hknown⟩
    · have hnew : t.own.contains ⟨f.entry, addr⟩ = false := by
        rw [Bool.eq_false_iff]
        exact fun h => hknown (OrdMap.contains_iff.mp h)
      simp only [hregion, hnew, Bool.not_true, Bool.or_self, Bool.false_eq_true, if_false]
      cases hpaths : g.succs.paths addr addr f.around with
      | nil => exact .inl ⟨rfl, fun _ => .inr rfl⟩
      | cons x rest =>
        refine .inr ⟨hknown, fun hin => ?_, cons_ne_nil x rest, rfl⟩
        rw [Edges.paths_of_mem_barred hin] at hpaths
        cases hpaths
  · exact .inl ⟨by simp [hregion], fun h => absurd h hregion⟩

theorem Detects.tryStart (h : Detects g f tried t found t') (addr : Int) :
    Detects g f (tried ++ [addr]) t (tryStart g f.entry f.around f.region (found, t') addr).1
      (tryStart g f.entry f.around f.region (found, t') addr).2 := by
  rcases tryStart_cases (g := g) f t' found addr with ⟨heq, hreason⟩ | ⟨hnew, hout, hround, heq⟩
  · rw [heq]
    exact { h with
      sub := fun a ha => mem_append_left _ (h.sub a ha)
      complete := forall_mem_append.mpr ⟨h.complete, forall_mem_singleton.mpr hreason⟩ }
  · rw [heq]
    have hnot : addr ∉ found := fun hin => hnew ((h.mem_own _).mpr (.inr ⟨rfl, hin⟩))
    have hfresh : (⟨f.entry, addr⟩ : LoopId) ∉ t.own.keys :=
      fun hin => hnew ((h.mem_own _).mpr (.inl hin))
    refine ⟨forall_mem_append.mpr ⟨fun a ha => mem_append_left _ (h.sub a ha),
      fun a => mem_append_right _⟩, ?_,
      forall_mem_append.mpr ⟨h.fresh, forall_mem_singleton.mpr ⟨hfresh, hout⟩⟩,
      forall_mem_append.mpr ⟨h.round, forall_mem_singleton.mpr hround⟩,
      forall_mem_append.mpr ⟨fun a ha => ?_,
        forall_mem_singleton.mpr (OrdMap.get?_insert_self _ _ _)⟩,
      fun k hk => ?_, forall_mem_append.mpr ⟨fun a ha hregion => ?_,
        forall_mem_singleton.mpr fun _ => ?_⟩,
      fun hnodup => ?_, ?_⟩
    · exact h.nodup.append (nodup_singleton _) (disjoint_singleton.mpr hnot)
    · have hne : addr ≠ a := fun heq => hnot (heq ▸ ha)
      rw [OrdMap.get?_insert, if_neg fun heq => hne (LoopId.mk.inj heq).2]
      exact h.new a ha
    · have hother : ¬ (⟨f.entry, addr⟩ : LoopId) = k := by
        rintro rfl
        exact hk rfl (mem_append_right _ (.head _))
      rw [OrdMap.get?_insert_of_ne _ hother]
      exact h.kept k fun hout hin => hk hout (mem_append_left _ hin)
    · exact (h.complete a ha hregion).imp_left fun hin => OrdMap.mem_keys_insert.mpr (.inr hin)
    · exact .inl (OrdMap.mem_keys_insert.mpr (.inl rfl))
    · exact OrdMap.nodup_keys_insert (h.own_nodup hnodup) _ _
    · rw [h.rest]

theorem foldl_tryStart_detects :
    ∀ (l tried found : List Int) (t' : LoopTables), Detects g f tried t found t' →
    Detects g f (tried ++ l) t (l.foldl (tryStart g f.entry f.around f.region) (found, t')).1
      (l.foldl (tryStart g f.entry f.around f.region) (found, t')).2 := by
  intro l
  induction l with
  | nil =>
    intro tried found t' h
    rw [append_nil]
    exact h
  | cons addr l ih =>
    intro tried found t' h
    have hnext := ih (tried ++ [addr]) _ _ (h.tryStart addr)
    rwa [append_assoc, singleton_append] at hnext

/-- The loops found no longer wait for nodes inside; those that are opened do not wait at all. -/
structure Opens (entry : Int) (t : LoopTables) (found opened : List Int)
    (waiting waiting' : Waiting) : Prop where
  sub : ∀ a ∈ opened, a ∈ found
  other : ∀ a, a ∉ found → waiting'.get? a = waiting.get? a
  loop : ∀ a ∈ found, (a ∈ opened ∧ waiting'.get? a = none) ∨
    waiting'.get? a = some ((waiting.getD a []).filter (· ∉ t.own.getD ⟨entry, a⟩ []))
  keys_nodup : waiting.keys.Nodup → waiting'.keys.Nodup

theorem Opens.openLoop {entry : Int} {opened : List Int}
    (h : Opens entry t found opened waiting waiting') (hnot : addr ∉ found) :
    Opens entry t (found ++ [addr]) (openLoop entry t (opened, waiting') addr).1 waiting
      (openLoop entry t (opened, waiting') addr).2 := by
  have hsame : waiting'.getD addr [] = waiting.getD addr [] := by
    rw [OrdMap.getD, OrdMap.getD, h.other addr hnot]
  have hne : ∀ a ∈ found, addr ≠ a := fun a ha heq => hnot (heq ▸ ha)
  have hout : ∀ a, a ∉ found ++ [addr] → a ∉ found ∧ addr ≠ a := by
    intro a ha
    rw [mem_append, mem_singleton, not_or] at ha
    exact ⟨ha.1, Ne.symm ha.2⟩
  unfold Exploration.openLoop
  rw [hsame]
  dsimp only
  split
  · refine ⟨forall_mem_append.mpr ⟨fun a ha => mem_append_left _ (h.sub a ha),
      fun a => mem_append_right _⟩,
      fun a ha => ?_, forall_mem_append.mpr ⟨fun a ha => ?_, forall_mem_singleton.mpr ?_⟩,
      fun hnodup => OrdMap.nodup_keys_erase (h.keys_nodup hnodup) _⟩
    · rw [OrdMap.get?_erase_of_ne _ (hout a ha).2]
      exact h.other a (hout a ha).1
    · rw [OrdMap.get?_erase_of_ne _ (hne a ha)]
      exact (h.loop a ha).imp_left (And.imp_left (mem_append_left _))
    · exact .inl ⟨mem_append_right _ (.head _), OrdMap.get?_erase_self _ _⟩
  · refine ⟨fun a ha => mem_append_left _ (h.sub a ha), fun a ha => ?_, forall_mem_append.mpr
      ⟨fun a ha => ?_, forall_mem_singleton.mpr (.inr (OrdMap.get?_insert_self _ _ _))⟩,
      fun hnodup => OrdMap.nodup_keys_insert (h.keys_nodup hnodup) _ _⟩
    · rw [OrdMap.get?_insert_of_ne _ (hout a ha).2]
      exact h.other a (hout a ha).1
    · rw [OrdMap.get?_insert_of_ne _ (hne a ha)]
      exact h.loop a ha

theorem openLoops_opens (entry : Int) (t : LoopTables) (found : List Int) (hnodup : found.Nodup)
    (waiting : Waiting) :
    Opens entry t found (openLoops entry t found waiting).1 waiting
      (openLoops entry t found waiting).2 := by
  have hfold : ∀ (l seen opened : List Int) (waiting' : Waiting), (seen ++ l).Nodup →
      Opens entry t seen opened waiting waiting' →
      Opens entry t (seen ++ l) (l.foldl (openLoop entry t) (opened, waiting')).1 waiting
        (l.foldl (openLoop entry t) (opened, waiting')).2 := by
    intro l
    induction l with
    | nil =>
      intro seen opened waiting' _ h
      rw [append_nil]
      exact h
    | cons addr l ih =>
      intro seen opened waiting' hnodup h
      have hnot : addr ∉ seen := fun hin => (nodup_append.mp hnodup).2.2 addr hin addr (.head _) rfl
      rw [← singleton_append, ← append_assoc] at hnodup ⊢
      exact ih (seen ++ [addr]) _ _ hnodup (h.openLoop hnot)
  exact hfold found [] [] waiting hnodup
    ⟨forall_mem_nil _, fun a _ => rfl, forall_mem_nil _, id⟩

theorem keys_dropOutside (region : Region) (waiting : Waiting) :
    (dropOutside region waiting).keys = waiting.keys := by
  simp [dropOutside, OrdMap.keys, Function.comp_def]

theorem get?_dropOutside (region : Region) (waiting : Waiting) (a : Int) :
    (dropOutside region waiting).get? a =
      (waiting.get? a).map fun missing => if region.holds a then missing.filter region.holds
        else missing := by
  unfold dropOutside OrdMap.get?
  induction waiting.entries with
  | nil => rfl
  | cons e rest ih =>
    simp only [map_cons, OrdMap.lookup]
    by_cases he : e.1 = a
    · simp only [he, if_true, Option.map_some]
    · simp only [he, if_false]
      exact ih

/-- One search for loops: those found are the ones that are ready, which do not wait, and others,
which do not wait for what lies on a path back to them. In a region nothing waits for what is
outside. -/
structure Searched (g : Graph) (f : Frame) (waiting : Waiting) (t : LoopTables)
    (ready found : List Int) (waiting' : Waiting) (t' : LoopTables) : Prop where
  detects : Detects g f waiting.keys t found t'
  sub : ∀ a ∈ ready, a ∈ found
  other : ∀ a, a ∉ found → ∀ missing, waiting.get? a = some missing →
    ∃ rest, waiting'.get? a = some rest ∧
    ∀ p, p ∈ rest ↔ p ∈ missing ∧ (f.region.holds a = true → f.region.holds p = true)
  loop : ∀ a ∈ found, a ∈ ready ∨ ∃ rest, waiting'.get? a = some rest ∧
    ∀ p ∈ rest, p ∉ g.succs.paths a a f.around
  shrinks : ∀ a rest, waiting'.get? a = some rest → ∃ missing, waiting.get? a = some missing ∧
    rest ⊆ missing
  keys_nodup : waiting.keys.Nodup → waiting'.keys.Nodup

/-- No node begins to wait by a search. -/
theorem Searched.mem_keys (h : Searched g f waiting t ready found waiting' t')
    (ha : a ∈ waiting'.keys) : a ∈ waiting.keys := by
  obtain ⟨rest, hrest⟩ := OrdMap.mem_keys.mp ha
  obtain ⟨missing, hmissing, -⟩ := h.shrinks a rest hrest
  exact OrdMap.mem_keys_of_get? hmissing

theorem Searches.searched (h : Searches g f waiting t ready found waiting' t') :
    Searched g f waiting t ready found waiting' t' := by
  obtain @⟨order, found, opened, ready, w₁, t', hperm, hfold, hopen, hready⟩ := h
  have hdetects := foldl_tryStart_detects order [] [] t (Detects.nil g f t)
  rw [hfold, nil_append] at hdetects
  have hopens := openLoops_opens f.entry t' found hdetects.nodup waiting
  rw [hopen] at hopens
  dsimp only at hdetects hopens
  have hfilter : ∀ a (missing : List Int) p,
      p ∈ (if f.region.holds a then missing.filter f.region.holds else missing) ↔
        p ∈ missing ∧ (f.region.holds a = true → f.region.holds p = true) := by
    intro a missing p
    split
    · rename_i hin
      rw [mem_filter]
      exact ⟨fun h => ⟨h.1, fun _ => h.2⟩, fun h => ⟨h.1, h.2 hin⟩⟩
    · rename_i hout
      exact ⟨fun h => ⟨h, fun hin => absurd hin hout⟩, fun h => h.1⟩
  refine ⟨?_, fun a ha => hopens.sub a (hready.mem_iff.mp ha), fun a ha missing hmissing => ?_,
    fun a ha => ?_, fun a rest hrest => ?_, fun hnodup => ?_⟩
  · exact { hdetects with
      sub := fun a ha => hperm.mem_iff.mp (hdetects.sub a ha)
      complete := fun a ha => hdetects.complete a (hperm.mem_iff.mpr ha) }
  · refine ⟨_, ?_, hfilter a missing⟩
    rw [get?_dropOutside, hopens.other a ha, hmissing]
    rfl
  · rcases hopens.loop a ha with ⟨hin, -⟩ | hrest
    · exact .inl (hready.mem_iff.mpr hin)
    · refine .inr ⟨_, by rw [get?_dropOutside, hrest]; rfl, fun p hp => ?_⟩
      have hp := ((hfilter a _ p).mp hp).1
      rw [OrdMap.getD_of_get? (hdetects.new a ha)] at hp
      simpa using (mem_filter.mp hp).2
  · rw [get?_dropOutside] at hrest
    obtain ⟨missing', hmissing', rfl⟩ := Option.map_eq_some_iff.mp hrest
    have hsub : ∀ p ∈ (if f.region.holds a then missing'.filter f.region.holds else missing'),
        p ∈ missing' :=
      fun p hp => ((hfilter a missing' p).mp hp).1
    by_cases ha : a ∈ found
    · rcases hopens.loop a ha with ⟨-, hnone⟩ | hsome
      · rw [hnone] at hmissing'
        cases hmissing'
      · obtain ⟨missing, hmissing⟩ := OrdMap.mem_keys.mp (hperm.mem_iff.mp (hdetects.sub a ha))
        refine ⟨missing, hmissing, fun p hp => ?_⟩
        rw [hsome, OrdMap.getD_of_get? hmissing] at hmissing'
        have hp := hsub p hp
        rw [← Option.some.inj hmissing'] at hp
        exact (mem_filter.mp hp).1
    · exact ⟨missing', (hopens.other a ha) ▸ hmissing', fun p hp => hsub p hp⟩
  · rw [keys_dropOutside]
    exact hopens.keys_nodup hnodup

end Decompiler.Exploration
