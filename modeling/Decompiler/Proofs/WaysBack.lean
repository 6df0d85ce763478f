import Decompiler.Proofs.PathsComplete
/-!
# What lies on ways back is strongly connected

The search for the ways from an address back to itself visits each address once and may miss some
that lie on such ways. What it does find hangs together: something is found exactly if there is a
way round that avoids the barred addresses, and every address found can be reached from the start
and leads back to it without leaving what was found (`Edges.paths_strongly_connected`).

Both directions are kept by the search. An address is put on a path because of a successor that is
on one, so it leads back along what was found before it (`PathSearch.LeadsBack`). And whatever a
search from an address finds is found below it, so that the address is put on a path when the search
comes back to it (`PathSearch.FindsBelow`).
-/

namespace Decompiler

open List

variable {x next : Int} {search : Int → PathSearch → PathSearch}

/-- An edge both of whose ends are in a set. -/
def Edges.Within (edges : Edges) (s : Set Int) (a b : Int) : Prop :=
  b ∈ edges.getD a [] ∧ a ∈ s ∧ b ∈ s

namespace PathSearch

variable {edges : Edges} {goal addr : Int} {barred : List Int} {s s' s'' : PathSearch}

/-- The addresses found to lie on a path. -/
def found (s : PathSearch) : Set Int := { x | x ∈ s.onPath }

theorem mem_found_put : x ∈ (s.put addr).found ↔ x = addr ∨ x ∈ s.found := mem_insert_iff

theorem found_subset_put (s : PathSearch) (addr : Int) : s.found ⊆ (s.put addr).found :=
  fun _ hx => mem_found_put.mpr (.inr hx)

/-- A way along what is found stays one when more is found. -/
theorem within_mono (h : s.found ⊆ s'.found) {a b : Int}
    (hab : Relation.ReflTransGen (edges.Within s.found) a b) :
    Relation.ReflTransGen (edges.Within s'.found) a b :=
  Relation.ReflTransGen.mono (fun _ _ hedge => ⟨hedge.1, h hedge.2.1, h hedge.2.2⟩) _ _ hab

/-! ## Back to the goal -/

/-- Whatever is on a path leads to the goal along what is on a path. The goal apart, none of it is
barred. -/
structure LeadsBack (edges : Edges) (goal : Int) (barred : List Int) (s : PathSearch) : Prop where
  back : ∀ x ∈ s.found, Relation.ReflTransGen (edges.Within s.found) x goal
  free : ∀ x ∈ s.found, x ≠ goal → x ∉ barred

/-- The goal is put on a path, where an edge leads to it. -/
theorem LeadsBack.put_goal (h : s.LeadsBack edges goal barred) :
    (s.put goal).LeadsBack edges goal barred := by
  refine ⟨fun x hx => ?_, fun x hx hne => ?_⟩
  · rcases mem_found_put.mp hx with rfl | hx
    · exact .refl
    · exact within_mono (s.found_subset_put goal) (h.back x hx)
  · exact h.free x ((mem_found_put.mp hx).resolve_left hne) hne

/-- An address is put on a path, because an edge leads from it to what is on one. -/
theorem LeadsBack.put_source (h : s.LeadsBack edges goal barred) (hopen : addr ∉ barred)
    (hedge : next ∈ edges.getD addr []) (hnext : next ∈ s.found) :
    (s.put addr).LeadsBack edges goal barred := by
  have hmono := s.found_subset_put addr
  refine ⟨fun x hx => ?_, fun x hx hne => ?_⟩
  · rcases mem_found_put.mp hx with rfl | hx
    · exact .head ⟨hedge, hx, hmono hnext⟩ (within_mono hmono (h.back next hnext))
    · exact within_mono hmono (h.back x hx)
  · rcases mem_found_put.mp hx with rfl | hx
    · exact hopen
    · exact h.free x hx hne

theorem LeadsBack.mem_goal (h : s.LeadsBack edges goal barred) (hx : x ∈ s.found) :
    goal ∈ s.found := by
  rcases Relation.ReflTransGen.cases_tail (h.back x hx) with rfl | ⟨y, -, hedge⟩
  · exact hx
  · exact hedge.2.2

theorem leadsBack_start : LeadsBack edges goal barred ⟨[], []⟩ :=
  ⟨forall_mem_nil _, forall_mem_nil _⟩

/-! ## From where the search began -/

/-- What a search from an address has found since `s` can be reached from the address along what is
on a path. -/
structure FindsBelow (edges : Edges) (addr : Int) (s s' : PathSearch) : Prop where
  mono : s.found ⊆ s'.found
  below : ∀ x ∈ s'.found, x ∈ s.found ∨ Relation.ReflTransGen (edges.Within s'.found) addr x

theorem FindsBelow.refl (s : PathSearch) : FindsBelow edges addr s s :=
  ⟨fun _ hx => hx, fun _ hx => .inl hx⟩

theorem FindsBelow.trans (h : FindsBelow edges addr s s') (h' : FindsBelow edges addr s' s'') :
    FindsBelow edges addr s s'' := by
  refine ⟨h.mono.trans h'.mono, fun x hx => ?_⟩
  rcases h'.below x hx with hx | hx
  · exact (h.below x hx).imp_right (within_mono h'.mono)
  · exact .inr hx

theorem FindsBelow.put_self (s : PathSearch) (addr : Int) :
    FindsBelow edges addr s (s.put addr) := by
  refine ⟨s.found_subset_put addr, fun x hx => ?_⟩
  rcases mem_found_put.mp hx with rfl | hx
  · exact .inr .refl
  · exact .inl hx

/-- If something was found from the end of an edge, that end is on a path. -/
theorem FindsBelow.mem_found (h : FindsBelow edges addr s s') (hx : x ∈ s'.found)
    (hnew : x ∉ s.found) : addr ∈ s'.found := by
  rcases Relation.ReflTransGen.cases_head ((h.below x hx).resolve_left hnew) with rfl | ⟨y,
    hedge, -⟩
  · exact hx
  · exact hedge.2.1

/-- One edge. Where nothing is found from its end, its source stays as it was; otherwise that is put
on a path, and leads over the edge to all that was found. -/
theorem follow_finds (hopen : addr ∉ barred) (hedge : next ∈ edges.getD addr [])
    (hback : (search next s).LeadsBack edges goal barred)
    (hfinds : FindsBelow edges next s (search next s)) :
    (follow search addr s next).LeadsBack edges goal barred ∧
      FindsBelow edges addr s (follow search addr s next) ∧
      ((follow search addr s next).found ⊆ s.found ∨ next ∈ (follow search addr s next).found) := by
  rcases follow_cases search addr s next with ⟨hon, heq⟩ | ⟨hon, heq⟩
  · rw [heq]
    have hmono := (search next s).found_subset_put addr
    refine ⟨hback.put_source hopen hedge hon, ⟨hfinds.mono.trans hmono, fun x hx => ?_⟩,
      .inr (hmono hon)⟩
    rcases mem_found_put.mp hx with rfl | hx
    · exact .inr .refl
    · refine (hfinds.below x hx).imp_right fun hway => ?_
      exact .head ⟨hedge, mem_found_put.mpr (.inl rfl), hmono hon⟩ (within_mono hmono hway)
  · rw [heq]
    have hsub : (search next s).found ⊆ s.found := by
      intro x hx
      by_contra hnew
      exact hon (hfinds.mem_found hx hnew)
    exact ⟨hback, ⟨hfinds.mono, fun x hx => .inl (hsub hx)⟩, .inl hsub⟩

/-- All edges from an address that is not barred. If anything is found by way of them, the end of
one is on a path. -/
theorem foldl_follow_finds (hopen : addr ∉ barred)
    (hsearch : ∀ next s, s.LeadsBack edges goal barred →
      (search next s).LeadsBack edges goal barred ∧ FindsBelow edges next s (search next s))
    (hs : s.LeadsBack edges goal barred) :
    ((edges.getD addr []).foldl (follow search addr) s).LeadsBack edges goal barred ∧
      FindsBelow edges addr s ((edges.getD addr []).foldl (follow search addr) s) ∧
      (((edges.getD addr []).foldl (follow search addr) s).found ⊆ s.found ∨
        ∃ next ∈ edges.getD addr [], next ∈
          ((edges.getD addr []).foldl (follow search addr) s).found) := by
  refine foldlRecOn (motive := fun s' => s'.LeadsBack edges goal barred ∧
    FindsBelow edges addr s s' ∧
    (s'.found ⊆ s.found ∨ ∃ next ∈ edges.getD addr [], next ∈ s'.found)) _ _
    ⟨hs, FindsBelow.refl s, .inl fun _ hx => hx⟩ fun s' h next hnext => ?_
  obtain ⟨hback, hfinds⟩ := hsearch next s' h.1
  obtain ⟨hback', hfinds', hfound⟩ := follow_finds hopen hnext hback hfinds
  refine ⟨hback', h.2.1.trans hfinds', ?_⟩
  rcases h.2.2 with hsub | ⟨y, hy, hon⟩
  · exact hfound.imp hsub.trans' fun hon => ⟨next, hnext, hon⟩
  · exact .inr ⟨y, hy, hfinds'.mono hon⟩

/-- The search from an address: what it finds leads back to the goal, and is reached from the
address. -/
theorem pathsFrom_finds : ∀ (fuel : Nat) (first : Bool) (addr : Int) (s : PathSearch),
    s.LeadsBack edges goal barred →
    (edges.pathsFrom goal barred fuel first addr s).LeadsBack edges goal barred ∧
      FindsBelow edges addr s (edges.pathsFrom goal barred fuel first addr s) := by
  intro fuel
  induction fuel with
  | zero => intro first addr s hs; exact ⟨hs, FindsBelow.refl s⟩
  | succ fuel ih =>
    intro first addr s hs
    rcases pathsFrom_cases edges goal barred fuel first addr s with
      ⟨rfl, -, heq⟩ | ⟨-, -, heq⟩ | ⟨-, -, -, heq⟩ | ⟨-, -, hopen, heq⟩
    · rw [heq]
      exact ⟨hs.put_goal, FindsBelow.put_self s addr⟩
    · rw [heq]
      exact ⟨hs, FindsBelow.refl s⟩
    · rw [heq]
      exact ⟨⟨hs.back, hs.free⟩, fun _ hx => hx, fun _ hx => .inl hx⟩
    · rw [heq]
      obtain ⟨hback, hfinds, -⟩ := foldl_follow_finds (s := { s with seen := addr :: s.seen }) hopen
        (fun next s => ih false next s) ⟨hs.back, hs.free⟩
      exact ⟨hback, hfinds.mono, hfinds.below⟩

end PathSearch

namespace Edges

open PathSearch

variable {edges : Edges} {start : Int} {barred : List Int}

/-- The addresses on paths from an address back to itself. -/
def waysBack (edges : Edges) (start : Int) (barred : List Int) : Set Int :=
  { x | x ∈ edges.paths start start barred }

/-- Whatever lies on a way back is reached from the start and leads back to it, without leaving such
ways. -/
theorem waysBack_connected (hx : x ∈ edges.waysBack start barred) :
    Relation.ReflTransGen (edges.Within (edges.waysBack start barred)) start x ∧
      Relation.ReflTransGen (edges.Within (edges.waysBack start barred)) x start := by
  obtain ⟨hback, hfinds⟩ := pathsFrom_finds (edges.size + 2) true start ⟨[], []⟩
    (leadsBack_start : LeadsBack edges start barred _)
  exact ⟨(hfinds.below x hx).resolve_left not_mem_nil, hback.back x hx⟩

/-- Whatever lies on a path from an address back to itself leads on along such paths, and the
address itself is among it. -/
theorem exists_next_of_mem_paths (hx : x ∈ edges.paths start start barred) :
    start ∈ edges.paths start start barred ∧
      ∃ y ∈ edges.getD x [], y ∈ edges.paths start start barred := by
  have hopen : start ∉ barred := by
    intro h
    rw [paths_of_mem_barred h] at hx
    cases hx
  rw [paths_of_not_mem_barred hopen] at hx ⊢
  obtain ⟨hback, -, hfound⟩ := foldl_follow_finds (s := ⟨[start], []⟩) hopen
    (fun next s => pathsFrom_finds (edges.size + 1) false next s)
    ⟨forall_mem_nil _, forall_mem_nil _⟩
  refine ⟨hback.mem_goal hx, ?_⟩
  rcases Relation.ReflTransGen.cases_head (hback.back x hx) with rfl | ⟨y, hedge, -⟩
  · exact hfound.resolve_left fun hsub => absurd (hsub hx) not_mem_nil
  · exact ⟨y, hedge.1, hedge.2.2⟩

/-- No barred address lies on a way back. -/
theorem not_mem_barred_of_mem_waysBack (hx : x ∈ edges.waysBack start barred) : x ∉ barred := by
  have hstart : start ∉ barred := by
    intro hin
    rw [waysBack, paths_of_mem_barred hin] at hx
    cases hx
  by_cases heq : x = start
  · exact heq ▸ hstart
  · exact (pathsFrom_finds (edges.size + 2) true start ⟨[], []⟩ leadsBack_start).1.free x hx heq

/-- If anything lies on a way back, there is a way round from the start along what does. -/
theorem exists_round_of_mem_waysBack (hx : x ∈ edges.waysBack start barred) :
    Relation.TransGen (edges.Within (edges.waysBack start barred)) start start := by
  have hstart : start ∈ edges.waysBack start barred := (exists_next_of_mem_paths hx).1
  obtain ⟨-, y, hedge, hy⟩ := exists_next_of_mem_paths hstart
  exact .head' ⟨hedge, hstart, hy⟩ (waysBack_connected hy).2

/-- A way round that avoids the barred addresses is noticed: its last address lies on a way back. -/
theorem exists_mem_waysBack (h : Relation.TransGen (edges.Within { a | a ∉ barred }) start start) :
    ∃ x, x ∈ edges.waysBack start barred := by
  obtain ⟨p, hway, hlast⟩ := Relation.TransGen.tail'_iff.mp h
  have hopen : ∀ a b, edges.Within { a | a ∉ barred } a b → edges.Open barred a b :=
    fun a b hab => ⟨hab.1, hab.2.1⟩
  exact ⟨p, mem_paths_of_reach (Relation.ReflTransGen.mono hopen _ _ hway) (hopen p start hlast)⟩

/-- Something lies on paths from an address back to itself exactly if a way round leads over
addresses that are not barred. It is then strongly connected: the start is among it, no barred
address is, and each address is reached from the start and leads back to it by edges that do not
leave it. -/
theorem paths_strongly_connected (edges : Edges) (start : Int) (barred : List Int) :
    (edges.paths start start barred = [] ↔
      ¬ Relation.TransGen (edges.Within { a | a ∉ barred }) start start) ∧
    (edges.paths start start barred ≠ [] →
      start ∈ edges.paths start start barred ∧
      (∀ x ∈ edges.paths start start barred, x ∉ barred) ∧
      ∀ x ∈ edges.paths start start barred,
        Relation.TransGen (edges.Within { a | a ∈ edges.paths start start barred }) start x ∧
        Relation.TransGen (edges.Within { a | a ∈ edges.paths start start barred }) x start) := by
  refine ⟨⟨fun hnil hround => ?_, fun hnone => ?_⟩, fun hne => ?_⟩
  · obtain ⟨x, hx⟩ := exists_mem_waysBack hround
    rw [waysBack, hnil] at hx
    cases hx
  · by_contra hne
    obtain ⟨x, hx⟩ := exists_mem_of_ne_nil _ hne
    refine hnone (Relation.TransGen.mono (fun a b hab => ?_) _ _ (exists_round_of_mem_waysBack hx))
    exact ⟨hab.1, not_mem_barred_of_mem_waysBack hab.2.1, not_mem_barred_of_mem_waysBack hab.2.2⟩
  · obtain ⟨x, hx⟩ := exists_mem_of_ne_nil _ hne
    have hround := exists_round_of_mem_waysBack hx
    refine ⟨(exists_next_of_mem_paths hx).1, fun y hy => not_mem_barred_of_mem_waysBack hy,
      fun y hy => ?_⟩
    -- The start has a way round, so the ways to and from an address can be taken to have at least
    -- one edge.
    obtain ⟨hto, hfrom⟩ := waysBack_connected hy
    exact ⟨hround.trans_left hto, Relation.TransGen.trans_right hfrom hround⟩

/-- Two loops through 1, and a barred address on a third. -/
def sharedStart : Edges := ⟨[(1, [2, 5]), (2, [3, 4]), (3, [2, 1]), (4, [3, 6]), (5, [1])]⟩

/-- Of the addresses around 1 that avoid 5, the search finds those on the loop, and each leads to
every other. -/
theorem paths_strongly_connected_shared :
    (4 ∈ sharedStart.paths 1 1 [5] ∧ 5 ∉ sharedStart.paths 1 1 [5] ∧
      6 ∉ sharedStart.paths 1 1 [5]) ∧ Relation.TransGen (sharedStart.Within { a | a ∉ [5] }) 1 1 ∧
      Relation.TransGen (sharedStart.Within { a | a ∈ sharedStart.paths 1 1 [5] }) 1 4 ∧
      Relation.TransGen (sharedStart.Within { a | a ∈ sharedStart.paths 1 1 [5] }) 4 1 := by
  have hne : sharedStart.paths 1 1 [5] ≠ [] := by decide
  obtain ⟨hround, hjoined⟩ := paths_strongly_connected sharedStart 1 [5]
  exact ⟨by decide, not_not.mp (mt hround.mpr hne), (hjoined hne).2.2 4 (by decide)⟩

end Edges

end Decompiler
