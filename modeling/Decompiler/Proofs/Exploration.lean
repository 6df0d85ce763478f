import Decompiler.Proofs.LoopTables
/-!
# The search for loops comes to an end

Whatever `Exploration.explore` gives, the machine gives in one of its runs, and on a well formed
graph the counts of `explore` are never used up (`explore_follows`). So what holds of all runs holds
of its answer: every look-up succeeds but one, since a loop that starts at the entry of the function
may be recorded before a loop inside it is. `Graph.loops` fails only in this way, and only if some
edge leads back to the entry (`loops_meets`).

The levels of the search share one table. What a level finds is recorded when it ends, so at any
time the loops that are found but not recorded belong to levels still under way (`Config.Booked`);
these start at the entry or at a start that is barred.
-/

namespace Decompiler

open List OrdMap

variable {visited ready found : List Int} {g : Graph}

/-! ## Edges that are left -/

namespace Graph

/-- The number of edges in a list of successors by address that start at an address not yet
visited. -/
def leftIn (visited : List Int) (l : List (Int × List Int)) : Nat :=
  ((l.filter (·.1 ∉ visited)).map (·.2.length)).sum

/-- The number of edges from nodes not yet visited. -/
def edgesLeft (g : Graph) (visited : List Int) : Nat := leftIn visited g.succs.entries

theorem leftIn_cons (visited : List Int) (e : Int × List Int) (l : List (Int × List Int)) :
    leftIn visited (e :: l) = (if e.1 ∉ visited then e.2.length else 0) + leftIn visited l := by
  by_cases h : e.1 ∈ visited <;> simp [leftIn, h]

theorem edgesLeft_le (g : Graph) (visited : List Int) : g.edgesLeft visited ≤ g.edgeCount := by
  rw [edgesLeft, edgeCount, OrdMap.values]
  induction g.succs.entries with
  | nil => simp [leftIn]
  | cons e l ih =>
    rw [leftIn_cons, map_cons, flatten_cons, length_append]
    split <;> omega

variable {a b : Int}

theorem leftIn_visit (h : a ∉ visited) (l : List (Int × List Int)) :
    leftIn (a :: visited) l + ((OrdMap.lookup a l).getD []).length ≤ leftIn visited l := by
  have hmono : ∀ l, leftIn (a :: visited) l ≤ leftIn visited l := by
    intro l
    induction l with
    | nil => exact le_refl _
    | cons e l ih =>
      rw [leftIn_cons, leftIn_cons]
      by_cases he : e.1 ∈ visited
      · simpa [he] using ih
      · by_cases hea : e.1 = a <;> simp [he, hea] <;> omega
  induction l with
  | nil => simp [leftIn, OrdMap.lookup]
  | cons e l ih =>
    rw [leftIn_cons, leftIn_cons]
    by_cases hea : e.1 = a
    · have := hmono l
      have he : e.1 ∉ visited := hea ▸ h
      simp only [hea, mem_cons, true_or, not_true, if_false, OrdMap.lookup, if_true,
        Option.getD_some, h, not_false_eq_true]
      omega
    · have hiff : (e.1 ∉ a :: visited) ↔ e.1 ∉ visited := by simp [hea]
      simp only [hiff, OrdMap.lookup, hea, if_false]
      omega

/-- Visiting a node takes its edges off. -/
theorem edgesLeft_visit (h : a ∉ visited) :
    g.edgesLeft (a :: visited) + (g.next a).length ≤ g.edgesLeft visited :=
  leftIn_visit h g.succs.entries

theorem mem_preds_keys (hg : g.WellFormed) (h : g.Edge a b) : b ∈ g.preds.keys := by
  obtain ⟨l, hl, -⟩ := exists_of_mem_getD ((mem_preds_iff hg).mpr h)
  exact mem_keys_of_get? hl

theorem exists_edge_of_mem_preds (hg : g.WellFormed) (h : b ∈ g.preds.keys) : ∃ a, g.Edge a b := by
  obtain ⟨l, hl⟩ := mem_keys.mp h
  obtain ⟨a, ha⟩ := exists_mem_of_ne_nil l (hg.preds b l hl)
  exact ⟨a, (mem_iff_edge hg hl).mp ha⟩

/-- An address with a successor is a node. -/
theorem mem_nodes_of_edge (hg : g.WellFormed) (h : g.Edge a b) : a ∈ g.nodes.keys := by
  obtain ⟨l, hl, -⟩ := exists_of_mem_getD h
  exact (hg.succs a l hl).1

end Graph

namespace Exploration

variable {w : Walk} {c c' : Config}

/-! ## Walks -/

/-- The steps that a walk can still take. -/
def Walk.load (g : Graph) (w : Walk) : Nat := w.stack.length + g.edgesLeft w.visited

/-- An edge arrives: its end waits, and nothing else changes. -/
theorem arrive_eq_ok (hg : g.WellFormed) {p addr : Int} (hedge : g.Edge p addr) :
    ∃ rest, arrive g w (some p) addr = .ok { w with waiting := w.waiting.insert addr rest } := by
  have hp : p ∈ distinct (g.preds.getD addr []) :=
    mem_distinct.mpr ((Graph.mem_preds_iff hg).mpr hedge)
  cases hw : w.waiting.get? addr with
  | some missing => exact ⟨missing.filter (fun q => some q ≠ some p), by simp only [arrive, hw]⟩
  | none =>
    exact ⟨(distinct (g.preds.getD addr [])).erase p, by simp only [arrive, hw, hp, if_true]⟩

/-! ## Loops found from an entry -/

variable {entry : Int} {t t' : LoopTables}

/-- The loops of the tables that were found from an entry. -/
def foundFrom (t : LoopTables) (entry : Int) : List LoopId := t.own.keys.filter (·.outer = entry)

variable {k : LoopId}

theorem mem_foundFrom : k ∈ foundFrom t entry ↔ k ∈ t.own.keys ∧ k.outer = entry := by
  simp [foundFrom]

/-- No more loops are found from one entry than there are addresses for their starts. -/
theorem length_foundFrom_le {l : List Int} (hnodup : t.own.keys.Nodup)
    (hsub : ∀ k ∈ t.own.keys, k.start ∈ l) (entry : Int) :
    (foundFrom t entry).length ≤ l.length := by
  have hstarts : ((foundFrom t entry).map (·.start)).Nodup := by
    refine List.Nodup.map_on (fun a ha b hb hab => ?_) (hnodup.filter _)
    obtain ⟨-, ha⟩ := mem_foundFrom.mp ha
    obtain ⟨-, hb⟩ := mem_foundFrom.mp hb
    cases a
    cases b
    simp_all
  rw [← length_map (f := (·.start))]
  refine (hstarts.subperm fun a ha => ?_).length_le
  obtain ⟨k, hk, rfl⟩ := mem_map.mp ha
  exact hsub k (mem_foundFrom.mp hk).1

theorem length_foundFrom_mono (hnodup : t.own.keys.Nodup) (hsub : ∀ k ∈ t.own.keys, k ∈ t'.own.keys)
    (entry : Int) : (foundFrom t entry).length ≤ (foundFrom t' entry).length := by
  refine ((hnodup.filter _).subperm fun k hk => ?_).length_le
  obtain ⟨hk, hout⟩ := mem_foundFrom.mp hk
  exact mem_foundFrom.mpr ⟨hsub k hk, hout⟩

theorem length_foundFrom_lt (hnodup : t.own.keys.Nodup) (hsub : ∀ k ∈ t.own.keys, k ∈ t'.own.keys)
    (hk : k ∈ t'.own.keys) (hnew : k ∉ t.own.keys) :
    (foundFrom t k.outer).length < (foundFrom t' k.outer).length := by
  have hnot : k ∉ foundFrom t k.outer := fun hin => hnew (mem_foundFrom.mp hin).1
  have hcons : (k :: foundFrom t k.outer).Nodup := nodup_cons.mpr ⟨hnot, hnodup.filter _⟩
  have hmem : k :: foundFrom t k.outer ⊆ foundFrom t' k.outer := by
    refine cons_subset.mpr ⟨mem_foundFrom.mpr ⟨hk, rfl⟩, fun k' hk' => ?_⟩
    obtain ⟨hk', hout⟩ := mem_foundFrom.mp hk'
    exact mem_foundFrom.mpr ⟨hsub k' hk', hout⟩
  exact lt_of_lt_of_le (Nat.lt_succ_self _) (hcons.subperm hmem).length_le

/-- A loop that is ready was not known before. -/
theorem Searched.length_foundFrom_lt {f : Frame} {waiting waiting' : Waiting}
    (h : Searched g f waiting t ready found waiting' t') (hnodup : t.own.keys.Nodup) {a : Int}
    (ha : a ∈ ready) : (foundFrom t f.entry).length < (foundFrom t' f.entry).length :=
  Exploration.length_foundFrom_lt hnodup (fun k hk => (h.detects.mem_own k).mpr (.inl hk))
    ((h.detects.mem_own ⟨f.entry, a⟩).mpr (.inr ⟨rfl, h.sub a ha⟩))
    (h.detects.fresh a (h.sub a ha)).1

/-! ## What the steps keep -/

/-- The level inside begins at a loop start that is not yet among the loops around, and adds it to
them. -/
def Nests (inner outer : Frame) : Prop :=
  inner.entry ∉ outer.around ∧ inner.around = inner.entry :: outer.around

/-- A level as it comes about. -/
structure Frame.Fits (g : Graph) (waiting : Waiting) (f : Frame) : Prop where
  walk : (f.walk waiting).Fits g
  around : Placed g f.around
  idle : (∀ moved, f.stage ≠ .walking moved) → f.stack = []
  ready : ∀ l, f.stage = .exploring l → ∀ a ∈ l, Place g a ∧ a ∉ f.around

/-- What a level has visited and done. -/
def Frame.advance (f : Frame) : Nat := f.visited.length + f.done.length

/-- The levels under way as they come about, with what they share. A level inside has done what the
levels around have. -/
structure Fits (g : Graph) (frames : List Frame) (waiting : Waiting) (t : LoopTables) : Prop where
  frame : ∀ f ∈ frames, f.Fits g waiting
  nested : frames.IsChain Nests
  done : frames.Pairwise fun inner outer => outer.done ⊆ inner.done
  own_nodup : t.own.keys.Nodup
  own : ∀ k ∈ t.own.keys, Place g k.start

/-- A state as it comes about. -/
def Config.Fits (g : Graph) : Config → Prop
  | .running frames waiting t => Exploration.Fits g frames waiting t
  | .failed _ => True

variable {f f' : Frame} {fs : List Frame} {waiting waiting' : Waiting} {t t' : LoopTables}

/-- A step in the innermost level leaves the others as they are. -/
theorem Fits.step_top (h : Fits g (f :: fs) waiting t) (hentry : f'.entry = f.entry)
    (haround : f'.around = f.around) (hdone : f.done ⊆ f'.done) (hf' : f'.Fits g waiting')
    (hnodup : t'.own.keys.Nodup) (hown : ∀ k ∈ t'.own.keys, Place g k.start) :
    Fits g (f' :: fs) waiting' t' := by
  obtain ⟨hbelow, hpairs⟩ := pairwise_cons.mp h.done
  have hcover : ∀ o ∈ fs, o.done ⊆ f'.done := fun o ho a ha => hdone (hbelow o ho ha)
  refine ⟨fun o ho => ?_, ?_, pairwise_cons.mpr ⟨hcover, hpairs⟩, hnodup, hown⟩
  · rcases mem_cons.mp ho with rfl | ho
    · exact hf'
    · have hfit := h.frame o (.tail _ ho)
      refine { hfit with walk := { hfit.walk with waiting := fun a ha => ?_ } }
      exact (hf'.walk.waiting a ha).imp_left fun hnot hin => hnot (hcover o ho hin)
  · have hnested := h.nested
    cases fs with
    | nil => exact isChain_singleton f'
    | cons o rest =>
      rw [isChain_cons_cons] at hnested ⊢
      rw [Nests, hentry, haround]
      exact hnested

/-- A step that gives the innermost level another walk. -/
theorem Fits.put (h : Fits g (f :: fs) waiting t) (hw : w.Fits g) (hdone : f.done ⊆ w.done)
    {stage : Stage} (hidle : (∀ moved, stage ≠ .walking moved) → w.stack = [])
    (hready : ∀ l, stage ≠ .exploring l) : Fits g (f.put w stage :: fs) w.waiting t :=
  h.step_top rfl rfl hdone ⟨hw, (h.frame f (.head _)).around, hidle, fun l hl =>
    absurd hl (hready l)⟩ h.own_nodup h.own

/-- A level that begins. -/
theorem Frame.Fits.begin {entry : Int} {around done : List Int} (region : Region)
    (hentry : Place g entry) (haround : Placed g around) (hvisited : Placed g visited)
    (hdone : Placed g done) (hwaiting : Waits g done waiting) :
    (Frame.begin g entry around region visited done).Fits g waiting where
  walk := .start entry (hvisited.insert hentry) hdone hwaiting
  around := haround
  idle h := absurd rfl (h false)
  ready l hl := by cases hl

theorem Config.Fits.start (g : Graph) : (Config.start g).Fits g := by
  refine ⟨fun f hf => ?_, isChain_singleton _, pairwise_singleton _ _, nodup_nil,
    fun k hk => by cases hk⟩
  rw [mem_singleton.mp hf]
  exact Frame.Fits.begin none (.inl rfl) (.nil g) (.nil g) (.nil g) fun a ha => by cases ha

theorem Frame.Fits.advance_le_put (h : f.Fits g waiting)
    (hrel : Releases f.region (f.walk waiting) w) (stage : Stage) :
    f.advance ≤ (f.put w stage).advance := by
  rw [Frame.advance, Frame.advance, Frame.put, hrel.frees.visited, Frame.walk]
  exact Nat.add_le_add_left (h.walk.releases hrel).2.1 _

/-- Recording changes none of the loops found. -/
theorem own_of_recordLoop {entry start : Int} (h : recordLoop entry t start = .ok t') :
    t'.own = t.own := by
  unfold recordLoop at h
  refine foldlM_invariant (fun s : LoopTables => s.own = t.own)
    (fun s other s' _ hs hstep => ?_) ?_ h
  swap
  · rfl
  unfold takeIn at hstep
  split at hstep
  · split at hstep
    · cases hstep
    · rw [← Except.ok.inj hstep]
      exact hs
  · rw [← Except.ok.inj hstep]
    exact hs

/-- A search finds loops among the nodes that wait, which are places. -/
theorem Fits.searched (h : Fits g (f :: fs) waiting t)
    (hs : Searched g f waiting t ready found waiting' t') :
    (∀ a ∈ ready, Place g a ∧ a ∉ f.around) ∧ t'.own.keys.Nodup ∧
      ∀ k ∈ t'.own.keys, Place g k.start := by
  have hplace : ∀ a ∈ found, Place g a :=
    fun a ha => .inr ((h.frame f (.head _)).walk.waiting a (hs.detects.sub a ha)).2
  refine ⟨fun a ha => ?_, hs.detects.own_nodup h.own_nodup, fun k hk => ?_⟩
  · have hfound := hs.sub a ha
    exact ⟨hplace a hfound, (hs.detects.fresh a hfound).2⟩
  · rcases (hs.detects.mem_own k).mp hk with hk | ⟨-, hk⟩
    · exact h.own k hk
    · exact hplace k.start hk

theorem Config.Fits.step (h : c.Fits g) (hstep : Step g c c') : c'.Fits g := by
  cases hstep with
  | @wait f fs waiting t moved source addr rest w hstage hstack hwait harrive =>
    have hf := h.frame f (.head _)
    obtain ⟨missing, rfl, -⟩ := arrive_spec harrive
    exact Fits.put h (hf.walk.wait hstack (mustWait_eq_true hwait) missing) (List.Subset.refl _)
      (fun hidle => absurd rfl (hidle moved)) fun _ => Stage.noConfusion
  | strand | misrecord => exact trivial
  | @enter f fs waiting t moved source addr rest entered w hstage hstack hwait henter =>
    have hf := h.frame f (.head _)
    have hpop := hf.walk.pop hstack
    rcases enter_spec henter with ⟨-, rfl, rfl⟩ | hnew
    · exact Fits.put h hpop (List.Subset.refl _) (fun hidle => absurd rfl (hidle _)) fun _ =>
        Stage.noConfusion
    · have hdone : w.done = f.done := hnew.done
      have hplace : Place g addr := hf.walk.place (hstack ▸ .head _ : (source, addr) ∈ f.stack)
      exact Fits.put h (hpop.enters hplace hnew) (hdone ▸ List.Subset.refl _)
        (fun hidle => absurd rfl (hidle _)) fun _ => Stage.noConfusion
  | @pause f fs waiting t w hstage hstack hrel | @resume f fs waiting t w hstage hrel hne =>
    have hf := h.frame f (.head _)
    exact Fits.put h (hf.walk.releases hrel).1 hrel.frees.done_subset (fun hidle =>
      absurd rfl (hidle _)) fun _ => Stage.noConfusion
  | @search f fs waiting t ready found waiting' t' hstage hsearch =>
    have hf := h.frame f (.head _)
    obtain ⟨hready, hnodup, hown⟩ := Fits.searched h hsearch.searched
    have hidle : f.stack = [] := by
      rcases hstage with ⟨-, hstack⟩ | hstage
      · exact hstack
      · exact hf.idle (by simp [hstage])
    refine Fits.step_top h rfl rfl (List.Subset.refl _) { hf with
      walk := { hf.walk with
        waiting := fun a ha => hf.walk.waiting a (hsearch.searched.mem_keys ha) }
      idle := fun _ => hidle
      ready := fun l hl a ha => ?_ } hnodup hown
    cases ready with
    | nil => cases hl
    | cons b rest =>
      obtain rfl := Stage.exploring.inj hl
      exact hready a ha
  | @descend f fs waiting t addr rest hstage =>
    have hf := h.frame f (.head _)
    obtain ⟨haddr, hout⟩ := hf.ready _ hstage addr (.head _)
    have hmid : Exploration.Fits g ({ f with stage := .exploring rest } :: fs) waiting t := by
      refine Fits.step_top h rfl rfl (List.Subset.refl _) { hf with
        idle := fun _ => hf.idle (by simp [hstage])
        ready := fun l hl a ha => ?_ } h.own_nodup h.own
      obtain rfl := Stage.exploring.inj hl
      exact hf.ready _ hstage a (.tail _ ha)
    refine ⟨forall_mem_cons.mpr ⟨?_, hmid.frame⟩, ?_, ?_, h.own_nodup, h.own⟩
    · exact Frame.Fits.begin _ haddr (hf.around.insert haddr)
        (hf.walk.visited.insert haddr) hf.walk.done hf.walk.waiting
    · exact isChain_cons_cons.mpr ⟨⟨hout, insert_of_not_mem hout⟩, hmid.nested⟩
    · obtain ⟨hbelow, -⟩ := pairwise_cons.mp h.done
      exact pairwise_cons.mpr ⟨forall_mem_cons.mpr ⟨List.Subset.refl _, hbelow⟩, hmid.done⟩
  | @settle f fs waiting t w left hstage hrel hstack hperm =>
    have hf := h.frame f (.head _)
    exact Fits.put h (hf.walk.releases hrel).1 hrel.frees.done_subset (fun _ => hstack) fun _ =>
      Stage.noConfusion
  | @record f fs waiting t start left t' hstage hrecord =>
    have hf := h.frame f (.head _)
    have hown := own_of_recordLoop hrecord
    refine Fits.step_top h rfl rfl (List.Subset.refl _) { hf with
      idle := fun _ => hf.idle (by simp [hstage])
      ready := fun l hl => by cases hl } (hown ▸ h.own_nodup) (hown ▸ h.own)
  | @leave f fs waiting t hstage =>
    exact { h with
      frame := (forall_mem_cons.mp h.frame).2
      nested := h.nested.tail
      done := (pairwise_cons.mp h.done).2 }

theorem Config.Fits.reaches (h : c.Fits g) (hreach : Reaches g c c') : c'.Fits g := by
  induction hreach with
  | refl => exact h
  | tail _ hstep ih => exact ih.step hstep

theorem Config.Fits.of_reaches (h : Reaches g (Config.start g) c) : c.Fits g := (start g).reaches h

/-! ## What the levels owe -/

/-- The starts that a level has found and not yet recorded. -/
def Frame.pending (f : Frame) : List Int :=
  match f.stage with
  | .recording left => left
  | _ => f.starts

/-- The loops that a level has found and not yet recorded. -/
def Frame.due (f : Frame) : List LoopId := f.pending.map (LoopId.mk f.entry)

/-- A level began at the entry of the function or at a start that is barred, and it has found starts
that are not. -/
structure Frame.Owes (g : Graph) (f : Frame) : Prop where
  entry : f.entry = g.entry ∨ f.entry ∈ f.around
  free : ∀ a ∈ f.pending, a ∉ f.around

/-- The one way to fail: a loop from the entry is not recorded in time. There is an edge back to the
entry then. -/
def EntryFault (g : Graph) (e : Fault) : Prop :=
  (∃ start, e = .noLoop start) ∧ g.entry ∈ g.preds.keys

/-- A state in which the loops found are those recorded and those that the levels owe. -/
def Config.Booked (g : Graph) : Config → Prop
  | .running frames _ t =>
    Exploration.Booked g (frames.flatMap Frame.due) t ∧ ∀ f ∈ frames, f.Owes g
  | .failed e => EntryFault g e

theorem Frame.pending_eq (h : ∀ left, f.stage ≠ .recording left) : f.pending = f.starts := by
  unfold Frame.pending
  split
  · rename_i left hrecording
    exact absurd hrecording (h left)
  · rfl

/-- A step in the innermost level, after which it owes other loops. -/
theorem Config.Booked.step_top (h : Config.Booked g (.running (f :: fs) waiting t))
    (hentry : f'.entry = f.entry) (haround : f'.around = f.around)
    (hfree : ∀ a ∈ f'.pending, a ∈ f.pending ∨ a ∉ f.around)
    (hbooked : Exploration.Booked g (f'.due ++ fs.flatMap Frame.due) t') :
    Config.Booked g (.running (f' :: fs) waiting' t') := by
  have hf := h.2 f (.head _)
  refine ⟨hbooked, forall_mem_cons.mpr ⟨⟨?_, fun a ha => ?_⟩, (forall_mem_cons.mp h.2).2⟩⟩
  · rw [hentry, haround]
    exact hf.entry
  · rw [haround]
    exact (hfree a ha).elim (hf.free a) id

/-- A step in the innermost level before it records, after which it owes the same. -/
theorem Config.Booked.keep (h : Config.Booked g (.running (f :: fs) waiting t))
    (hentry : f'.entry = f.entry) (haround : f'.around = f.around)
    (hstage : ∀ left, f.stage ≠ .recording left) (hstarts : f'.pending = f.starts) :
    Config.Booked g (.running (f' :: fs) waiting' t) := by
  have hsame : f'.pending = f.pending := hstarts.trans (Frame.pending_eq hstage).symm
  refine h.step_top hentry haround (fun a ha => .inl (hsame ▸ ha)) ?_
  rw [Frame.due, hsame, hentry]
  exact h.1

/-- The starts that are barred on a level are barred inside. -/
theorem Fits.around_subset (h : Fits g (f :: fs) waiting t) {o : Frame} (ho : o ∈ f :: fs) :
    o.around ⊆ f.around := by
  have hchain : (f :: fs).Pairwise fun inner outer => outer.around ⊆ inner.around := by
    refine (List.IsChain.pairwise (R := fun inner outer : Frame => outer.around ⊆ inner.around)
      (h.nested.imp fun inner outer hnests => ?_))
    rw [hnests.2]
    exact subset_cons_self _ _
  rcases mem_cons.mp ho with rfl | ho
  · exact List.Subset.refl _
  · exact (pairwise_cons.mp hchain).1 o ho

/-- Recording the next loop. A start that is not barred and from which a loop is due is the
entry. -/
theorem Config.Booked.recordLoop_meets (h : Config.Booked g (.running (f :: fs) waiting t))
    (hfits : Exploration.Fits g (f :: fs) waiting t) {start : Int} {left : List Int}
    (hpending : f.pending = start :: left) :
    Meets (Exploration.Booked g (left.map (LoopId.mk f.entry) ++ fs.flatMap Frame.due))
      (EntryFault g) (recordLoop f.entry t start) := by
  have hdue : (f :: fs).flatMap Frame.due = ⟨f.entry, start⟩ ::
      (left.map (LoopId.mk f.entry) ++ fs.flatMap Frame.due) := by
    rw [flatMap_cons, Frame.due, hpending]
    rfl
  have hbooked := h.1
  rw [hdue] at hbooked
  refine Exploration.Booked.recordLoop_meets hbooked fun other hother hout => ⟨⟨_, rfl⟩, ?_⟩
  obtain ⟨o, ho, hin⟩ := mem_flatMap.mp (hdue ▸ hother)
  obtain ⟨a, -, rfl⟩ := mem_map.mp hin
  obtain rfl : o.entry = start := hout
  obtain ⟨nodes, hnodes⟩ := mem_keys.mp (hbooked.mem_own (.head _))
  have hpreds := (hbooked.sound.own_round _ nodes hnodes).start_preds
  rcases (h.2 o ho).entry with hin | hin
  · rwa [← hin]
  · have hfree := (h.2 f (.head _)).free o.entry (hpending ▸ .head _)
    exact absurd (hfits.around_subset ho hin) hfree

theorem Config.Booked.step (hg : g.WellFormed) (hfits : c.Fits g) (h : c.Booked g)
    (hstep : Step g c c') : c'.Booked g := by
  cases hstep with
  | wait hstage | enter hstage | pause hstage | resume hstage =>
    exact h.keep rfl rfl (by simp [hstage]) rfl
  | @strand f fs waiting t moved source addr rest e hstage hstack hwait harrive =>
    -- An edge on the stack is waited for where it leads.
    have hhead : (source, addr) ∈ f.stack := hstack ▸ .head _
    rcases (hfits.frame f (.head _)).walk.stack _ hhead with ⟨p, hp, hedge⟩ | ⟨-, hdone⟩
    · obtain ⟨missing, hok⟩ := arrive_eq_ok hg (w := { f.walk waiting with stack := rest }) hedge
      rw [show source = some p from hp, hok] at harrive
      cases harrive
    · exact absurd hdone (mustWait_eq_true hwait)
  | @search f fs waiting t ready found waiting' t' hstage hsearch =>
    have hpending : f.pending = f.starts :=
      Frame.pending_eq (by rcases hstage with ⟨hstage, -⟩ | hstage <;> simp [hstage])
    have hpending' :
        Frame.pending { f with starts := f.starts ++ found, stage := .afterSearch ready } =
          f.starts ++ found := by
      cases ready <;> rfl
    have hdetects := hsearch.searched.detects
    refine h.step_top rfl rfl (fun a ha => ?_) ?_
    · rw [hpending'] at ha
      rw [hpending]
      exact (mem_append.mp ha).imp_right fun ha => (hdetects.fresh a ha).2
    · have hsound := h.1.sound.detects hdetects fun a ha =>
        ((hfits.frame f (.head _)).walk.waiting a ha).2.elim fun p hp => Graph.mem_preds_keys hg hp
      have hbooked := h.1.finds hsound hdetects
      rw [flatMap_cons, Frame.due, hpending] at hbooked
      rw [Frame.due, hpending', map_append, append_assoc]
      exact hbooked.perm (perm_append_comm_assoc _ _ _)
  | @descend f fs waiting t addr rest hstage =>
    have hrest : Config.Booked g (.running ({ f with stage := .exploring rest } :: fs) waiting t) :=
      h.keep rfl rfl (by simp [hstage]) rfl
    exact ⟨hrest.1, forall_mem_cons.mpr ⟨⟨.inr mem_insert_self, forall_mem_nil _⟩, hrest.2⟩⟩
  | @settle f fs waiting t w left hstage hrel hstack hperm =>
    have hpending : f.pending = f.starts := Frame.pending_eq (by simp [hstage])
    refine h.step_top rfl rfl (fun a ha => .inl ?_) ?_
    · rw [hpending]
      exact mem_distinct.mp (hperm.subset ha)
    · have hbooked := h.1
      rw [flatMap_cons, Frame.due, hpending] at hbooked
      exact hbooked.distinct.perm ((hperm.symm.map _).append_right _)
  | @record f fs waiting t start left t' hstage hrecord =>
    have hpending : f.pending = start :: left := by rw [Frame.pending, hstage]
    have hmeets := h.recordLoop_meets hfits hpending
    rw [hrecord] at hmeets
    exact h.step_top rfl rfl (fun a ha => .inl (hpending ▸ .tail _ ha)) hmeets
  | @misrecord f fs waiting t start left e hstage hrecord =>
    have hmeets := h.recordLoop_meets hfits (by rw [Frame.pending, hstage])
    rw [hrecord] at hmeets
    exact hmeets
  | @leave f fs waiting t hstage =>
    have hbooked := h.1
    rw [flatMap_cons, Frame.due, Frame.pending, hstage] at hbooked
    exact ⟨hbooked, (forall_mem_cons.mp h.2).2⟩

theorem Config.Booked.of_reaches (hg : g.WellFormed) (h : Reaches g (Config.start g) c) :
    c.Booked g := by
  induction h with
  | refl =>
    refine ⟨⟨.empty g, .refl _⟩, fun f hf => ?_⟩
    rw [mem_singleton.mp hf]
    exact ⟨.inl rfl, forall_mem_nil _⟩
  | tail hreach hstep ih => exact ih.step hg (.of_reaches hreach) hstep

/-! ## What `explore` gives is what a run gives -/

/-- Loops that are found stay found. -/
def Config.Knows (own : List LoopId) : Config → Prop
  | .running _ _ t => own ⊆ t.own.keys
  | .failed _ => True

theorem Config.Knows.of_reaches {own : List LoopId} (h : c.Knows own) (hreach : Reaches g c c') :
    c'.Knows own := by
  induction hreach with
  | refl => exact h
  | tail _ hstep ih =>
    cases hstep with
    | wait | enter | pause | descend | resume | settle | leave => exact ih
    | strand | misrecord => exact trivial
    | search _ hsearch => exact fun k hk => (hsearch.searched.detects.mem_own k).mpr (.inl (ih hk))
    | record _ hrecord => exact fun k hk => own_of_recordLoop hrecord ▸ ih hk

/-- From a state as it comes about, a run gives what a computation gives: it gets to a state that
goes with the value, or it fails for the same cause. The count of a computation is used up only on a
graph that is not well formed. -/
def Follows {α : Type} (g : Graph) (c : Config) (P : α → Config → Prop) (r : Except Fault α) :
    Prop :=
  c.Fits g →
    Meets (fun a => ∃ c', Reaches g c c' ∧ P a c') (fun e => (e = .stepBound ∧ ¬ g.WellFormed) ∨
      Reaches g c (.failed e)) r

namespace Follows

variable {α β : Type} {c c' : Config} {P : α → Config → Prop} {Q : β → Config → Prop}

theorem of_reaches {r : Except Fault α} (h : Reaches g c c') (hr : Follows g c' P r) :
    Follows g c P r := by
  intro hfit
  have hr := hr (hfit.reaches h)
  cases r with
  | ok a =>
    obtain ⟨c'', h', hP⟩ := hr
    exact ⟨c'', h.trans h', hP⟩
  | error e => exact hr.imp_right h.trans

theorem of_step {r : Except Fault α} (h : Step g c c') (hr : Follows g c' P r) : Follows g c P r :=
  of_reaches (.single h) hr

theorem bind {x : Except Fault α} {f : α → Except Fault β} (hx : Follows g c P x)
    (hf : ∀ a c', Reaches g c c' → P a c' → Follows g c' Q (f a)) : Follows g c Q (x >>= f) := by
  intro hfit
  have hx := hx hfit
  cases x with
  | ok a =>
    obtain ⟨c', h, hP⟩ := hx
    exact of_reaches h (hf a c' h hP) hfit
  | error e => exact hx

end Follows

/-- A walk from `w` has come to rest in `w'`; if it has `moved`, it has entered a node. -/
def Rests (w w' : Walk) (moved : Bool) : Prop :=
  w'.stack = [] ∧ w'.done = w.done ∧ w.visited.length ≤ w'.visited.length ∧
    (moved = true → w.visited.length < w'.visited.length)

/-- Every node puts its edges on the stack once, so there are steps enough to follow them. -/
theorem drain_follows (f : Frame) (fs : List Frame) (t : LoopTables) :
    ∀ (fuel : Nat) (moved : Bool) (w : Walk), w.load g < fuel →
      Follows g (.running (f.put w (.walking moved) :: fs) w.waiting t)
        (fun r c => Rests w r.2 (r.1 && !moved) ∧
          c = .running (f.put r.2 (.walking r.1) :: fs) r.2.waiting t)
        (drain g f.around f.region fuel moved w) := by
  intro fuel
  induction fuel with
  | zero => intro moved w hload; omega
  | succ fuel ih =>
    intro moved w hload
    cases hstack : w.stack with
    | nil =>
      rw [drain, hstack]
      exact fun _ => ⟨_, .refl, ⟨hstack, rfl, le_refl _, by cases moved <;> simp⟩, rfl⟩
    | cons e rest =>
      obtain ⟨source, addr⟩ := e
      have hload : rest.length + 1 + g.edgesLeft w.visited < fuel + 1 := by
        rw [Walk.load, hstack] at hload
        exact hload
      rw [drain, hstack]
      cases hwait : mustWait g f.region { w with stack := rest } addr with
      | true =>
        simp only [hwait, if_true]
        cases harrive : arrive g { w with stack := rest } source addr with
        | ok w' =>
          refine .of_step (.wait rfl hstack hwait harrive) ?_
          obtain ⟨missing, rfl, -⟩ := arrive_spec harrive
          exact ih moved { w with stack := rest, waiting := w.waiting.insert addr missing }
            (by simp only [Walk.load]; omega)
        | error fault => exact fun _ => .inr (.single (.strand rfl hstack hwait harrive))
      | false =>
        simp only [hwait, Bool.false_eq_true, if_false]
        cases henter : enter g f.around { w with stack := rest } addr with
        | mk b w₁ =>
          refine .of_step (.enter rfl hstack hwait henter) ?_
          rcases enter_spec henter with ⟨-, rfl, rfl⟩ | hnew
          · rw [Bool.or_false]
            exact ih moved { w with stack := rest } (by simp only [Walk.load]; omega)
          · have hleft := Graph.edgesLeft_visit (g := g) hnew.fresh
            have hgrows := hnew.grows
            refine fun hfit => (ih (moved || b) w₁ ?_ hfit).mono fun r hr => ?_
            · rw [Walk.load, hnew.visited]
              dsimp only at hleft hgrows ⊢
              omega
            · obtain ⟨c, hreach, ⟨hidle, hdone, hgrow, -⟩, hc⟩ := hr
              rw [hnew.visited, length_cons] at hgrow
              exact ⟨c, hreach, ⟨hidle, hdone.trans hnew.done, Nat.le_of_succ_le hgrow,
                fun _ => hgrow⟩, hc⟩

/-- What is needed of the explorations inside a level. -/
def Inner (g : Graph) (f : Frame)
    (explore : Int → Waiting → LoopTables → Except Fault (Waiting × LoopTables)) : Prop :=
  ∀ (addr : Int) (fs : List Frame) (waiting : Waiting) (t : LoopTables), addr ∉ f.around →
    Follows g (.running (f.inside g t addr :: fs) waiting t) (fun r c => c = .running fs r.1 r.2)
    (explore addr waiting t)

theorem foldlM_follows (f : Frame) (fs : List Frame)
    {explore : Int → Waiting → LoopTables → Except Fault (Waiting × LoopTables)}
    (hin : Inner g f explore) :
    ∀ (ready : List Int) (r : Waiting × LoopTables),
      Follows g (.running ({ f with stage := .exploring ready } :: fs) r.1 r.2)
        (fun r c => c = .running ({ f with stage := .exploring [] } :: fs) r.1 r.2)
        (ready.foldlM (fun r addr => explore addr r.1 r.2) r) := by
  intro ready
  induction ready with
  | nil => exact fun r _ => ⟨_, .refl, rfl⟩
  | cons addr rest ih =>
    intro r hfit
    have hout : addr ∉ f.around := ((hfit.frame _ (.head _)).ready _ rfl addr (.head _)).2
    rw [foldlM_cons]
    refine Follows.of_step (.descend rfl)
      (Follows.bind (hin addr _ r.1 r.2 hout) fun r' c _ hc => ?_) hfit
    rw [hc]
    exact ih r'

/-- Every round of explorations finds a loop from the entry that was not known, so there are rounds
enough. -/
theorem exploreReady_follows (f : Frame) (fs : List Frame)
    {explore : Int → Waiting → LoopTables → Except Fault (Waiting × LoopTables)}
    (hin : Inner g f explore) :
    ∀ (fuel : Nat) (ready starts : List Int) (waiting : Waiting) (t : LoopTables),
      (ready ≠ [] → g.nodes.size < fuel + (foundFrom t f.entry).length) →
      Follows g (.running ({ f with starts, stage := .afterSearch ready } :: fs) waiting t)
        (fun r c => c = .running ({ f with starts := r.1, stage := .settling } :: fs) r.2.1 r.2.2)
        (exploreReady g f.entry f.around f.region explore fuel ready starts waiting t) := by
  intro fuel
  induction fuel with
  | zero =>
    intro ready starts waiting t hfuel hfit
    cases ready with
    | nil => rw [exploreReady]; exact ⟨_, .refl, rfl⟩
    | cons a rest =>
      refine .inl ⟨rfl, fun hg => ?_⟩
      have hfound := length_foundFrom_le hfit.own_nodup (fun k hk =>
        (place_iff hg).mp (hfit.own k hk)) f.entry
      rw [length_keys] at hfound
      have := hfuel (cons_ne_nil a rest)
      omega
  | succ fuel ih =>
    intro ready starts waiting t hfuel hfit
    cases ready with
    | nil => rw [exploreReady]; exact ⟨_, .refl, rfl⟩
    | cons a rest =>
      have hfuel := hfuel (cons_ne_nil a rest)
      simp only [exploreReady]
      refine Follows.bind (foldlM_follows { f with starts } fs hin (a :: rest) (waiting, t))
        (fun r c hreach hc => ?_) hfit
      subst hc
      intro hfit'
      have hsearch : Searches g { f with starts, stage := .exploring [] } r.1 r.2 _ _ _ _ :=
        .search (.refl _) rfl rfl (.refl _)
      refine Follows.of_step (.search (.inr rfl) hsearch) (ih _ _ _ _ fun hne => ?_) hfit'
      obtain ⟨b, hb⟩ := exists_mem_of_ne_nil _ hne
      have hown : t.own.keys ⊆ r.2.own.keys := Config.Knows.of_reaches (List.Subset.refl _) hreach
      have hkept := length_foundFrom_mono hfit.own_nodup (fun k hk => hown hk) f.entry
      have hmore := lt_of_le_of_lt hkept (hsearch.searched.length_foundFrom_lt hfit'.own_nodup hb)
      exact Nat.lt_of_lt_of_le hfuel (by dsimp only at hmore ⊢; omega)

/-- Every round visits a node or ends the waiting of one, so there are rounds enough. -/
theorem rounds_follows (f : Frame) (fs : List Frame)
    {explore : Walk → Int → Waiting → LoopTables → Except Fault (Waiting × LoopTables)}
    (hin : ∀ w stage starts, Inner g { f.put w stage with starts } (explore w)) :
    ∀ (fuel : Nat) (w : Walk) (starts : List Int) (t : LoopTables),
      2 * g.nodes.size < fuel + w.visited.length + w.done.length →
      Follows g (.running ({ f.put w (.walking false) with starts } :: fs) w.waiting t)
        (fun r c => ∃ f' : Frame, f'.entry = f.entry ∧ f'.stage = .recording (distinct r.1) ∧
          c = .running (f' :: fs) r.2.1 r.2.2)
        (rounds g f.entry f.around f.region explore fuel w starts t) := by
  intro fuel
  induction fuel with
  | zero =>
    intro w starts t hfuel hfit
    refine .inl ⟨rfl, fun hg => ?_⟩
    have hw : w.Fits g := (hfit.frame _ (.head _)).walk
    have := hw.visited.length_le_size hg
    have := hw.done.length_le_size hg
    omega
  | succ fuel ih =>
    intro w starts t hfuel
    have hload : w.load g < w.stack.length + g.edgeCount + 1 :=
      Nat.lt_succ_of_le (Nat.add_le_add_left (g.edgesLeft_le w.visited) _)
    rw [rounds]
    refine Follows.bind (drain_follows { f with starts } fs t _ false w hload) fun r c _ hr => ?_
    obtain ⟨moved, w₁⟩ := r
    obtain ⟨⟨hstack, hdone, hvisited, hmoved⟩, rfl⟩ := hr
    dsimp only at hstack hdone hvisited hmoved ⊢
    rw [← hdone] at hfuel
    cases moved with
    | true =>
      intro hfit
      have hw : w₁.Fits g := (hfit.frame _ (.head _)).walk
      have hrel := releases_release f.region w₁
      refine Follows.of_step (.pause rfl hstack hrel) (ih _ starts t ?_) hfit
      have hlen := (hw.releases hrel).2.1
      have hmoved := hmoved rfl
      rw [hrel.frees.visited]
      omega
    | false =>
      refine .of_step (.search (.inl ⟨rfl, hstack⟩) (.search (.refl _) rfl rfl (.refl _))) ?_
      refine Follows.bind (exploreReady_follows (f.put w₁ .settling) fs (hin w₁ _ _) _ _ _ _ _
        fun _ => by omega) fun r c _ hc => ?_
      obtain ⟨starts', waiting, t'⟩ := r
      subst hc
      intro hfit
      have hw : Walk.Fits g { w₁ with waiting } := (hfit.frame _ (.head _)).walk
      have hrel := releases_release f.region { w₁ with waiting }
      dsimp only
      split
      · rename_i hempty
        refine ⟨_, .single (.settle rfl hrel (List.isEmpty_iff.mp hempty) (.refl _)),
          _, ?_, ?_, rfl⟩
        · rfl
        · rfl
      · rename_i hne
        have hne := mt List.isEmpty_iff.mpr hne
        refine Follows.of_step (.resume rfl hrel hne) (ih _ starts' t' ?_) hfit
        have hlen := (hw.releases hrel).2.2 hstack hne
        rw [hrel.frees.visited]
        dsimp only at hlen ⊢
        omega

theorem record_follows (f : Frame) (fs : List Frame) (waiting : Waiting) :
    ∀ (left : List Int) (t : LoopTables),
    Follows g (.running ({ f with stage := .recording left } :: fs) waiting t)
      (fun t' c => c = .running fs waiting t') (left.foldlM (recordLoop f.entry) t) := by
  intro left
  induction left with
  | nil => exact fun t _ => ⟨_, .single (.leave rfl), rfl⟩
  | cons start left ih =>
    intro t
    rw [foldlM_cons]
    cases hrecord : recordLoop f.entry t start with
    | ok t' => exact .of_step (.record rfl hrecord) (ih t')
    | error e => exact fun _ => .inr (.single (.misrecord rfl hrecord))

/-- The exploration of a loop, or of a function, is a run of one level from its beginning to its
return. Each level bars one start more, which bounds the depth. -/
theorem explore_follows :
    ∀ (depth : Nat) (entry : Int) (around visited done : List Int) (region : Region)
    (waiting : Waiting) (t : LoopTables) (fs : List Frame), g.nodes.size < depth + around.length →
    Follows g (.running (Frame.begin g entry around region visited done :: fs) waiting t)
      (fun r c => c = .running fs r.1 r.2)
        (explore g depth entry around visited done region waiting t) := by
  intro depth
  induction depth with
  | zero =>
    intro entry around visited done region waiting t fs hdepth hfit
    refine .inl ⟨rfl, fun hg => ?_⟩
    have haround : Placed g around := (hfit.frame _ (.head _)).around
    have := haround.length_le_size hg
    omega
  | succ depth ih =>
    intro entry around visited done region waiting t fs hdepth
    rw [explore]
    refine Follows.bind (rounds_follows (Frame.begin g entry around region visited done) fs
      (fun w stage starts => ?_)
      _ ((Frame.begin g entry around region visited done).walk waiting) [] t ?_) fun r c _ hr => ?_
    · intro addr fs' waiting' t' hout
      refine ih _ _ _ _ _ _ _ _ ?_
      rw [length_insert_of_not_mem hout]
      change g.nodes.size < depth + (around.length + 1)
      omega
    · omega
    · obtain ⟨starts, waiting', t'⟩ := r
      obtain ⟨f, hentry, hstage, rfl⟩ := hr
      dsimp only at hstage ⊢
      have hf : f = { f with stage := .recording (distinct starts) } := by rw [← hstage]
      rw [hf, show entry = f.entry from hentry.symm]
      exact Follows.bind (record_follows f fs waiting' _ t') fun t'' c _ hc _ => ⟨_, .refl, hc⟩

theorem loops_follows (g : Graph) :
    Follows g (Config.start g) (fun t c => ∃ waiting, c = .running [] waiting t) g.loops :=
  Follows.bind (explore_follows _ _ _ _ _ _ _ _ _ (by simp)) fun r _ _ hc _ => ⟨_, .refl, r.1, hc⟩

/-- The loops of a graph are those of a run of the search, and if there is no answer a run fails for
the same cause. -/
theorem loops_leads (g : Graph) :
    Meets (fun t => ∃ c, Reaches g (Config.start g) c ∧ ∃ waiting, c = .running [] waiting t)
      (fun e => e = .stepBound ∨ Reaches g (Config.start g) (.failed e)) g.loops :=
  (loops_follows g (.start g)).mono_error fun _ h => h.imp_left And.left

/-- Where the search returns, its tables are sound and every loop found is recorded. -/
theorem sound_of_reaches (hg : g.WellFormed) {waiting : Waiting} {t : LoopTables}
    (h : Reaches g (Config.start g) (.running [] waiting t)) :
    t.Sound g ∧ t.all.keys.Perm t.own.keys := by
  have hbooked : Booked g [] t := (Config.Booked.of_reaches hg h).1
  have hkeys := hbooked.keys
  rw [append_nil] at hkeys
  exact ⟨hbooked.sound, hkeys⟩

/-- On a well formed graph the answer is that of a run. -/
theorem loops_run (hg : g.WellFormed) :
    Meets (fun t => ∃ waiting, Reaches g (Config.start g) (.running [] waiting t))
      (fun e => Reaches g (Config.start g) (.failed e)) g.loops := by
  refine ((loops_follows g (.start g)).mono fun t ht => ?_).mono_error fun e he => ?_
  · obtain ⟨-, hreach, waiting, rfl⟩ := ht
    exact ⟨waiting, hreach⟩
  · exact he.resolve_left fun h => h.2 hg

end Exploration

open Exploration

/-- The search for the loops of a graph gives sound tables in which every loop found is recorded. It
fails only where a loop from the entry is not recorded in time, and then an edge leads back to the
entry. -/
theorem Graph.loops_meets (hg : g.WellFormed) :
    Meets (fun t => t.Sound g ∧ ∀ k, k ∈ t.all.keys ↔ k ∈ t.own.keys) (EntryFault g) g.loops := by
  refine ((loops_run hg).mono fun t ht => ?_).mono_error fun e he => Config.Booked.of_reaches hg he
  obtain ⟨waiting, hreach⟩ := ht
  obtain ⟨hsound, hkeys⟩ := sound_of_reaches hg hreach
  exact ⟨hsound, fun k => hkeys.mem_iff⟩

end Decompiler
