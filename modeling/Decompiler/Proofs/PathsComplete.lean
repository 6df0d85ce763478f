import Decompiler.Proofs.Paths
/-!
# The search for paths back misses nothing next to its goal

The search expands an address once and marks it as lying on a path by what its successors are marked
with at that time, so an address far from the goal may be missed. An address with an edge to the
goal is not: whatever the search can get to without going on from a barred address is expanded
(`PathSearch.Covers`), and there the edge is seen (`Edges.mem_paths_of_reach`). The search needs no
more steps than there are addresses with successors, so its bound is never met
(`Edges.pathsFrom_steps`).
-/

namespace Decompiler

open List

variable {addr next : Int} {s s' : PathSearch} {search : Int → PathSearch → PathSearch}

/-- The number of entries for addresses that have not been tried. -/
def Edges.untried (edges : Edges) (seen : List Int) : Nat := (edges.keys.filter (· ∉ seen)).length

namespace Edges

variable {edges : Edges} {seen seen' : List Int}

theorem untried_le_size (edges : Edges) (seen : List Int) : edges.untried seen ≤ edges.size := by
  rw [← OrdMap.length_keys]
  exact length_filter_le _ _

theorem untried_mono (h : ∀ x ∈ seen, x ∈ seen') : edges.untried seen' ≤ edges.untried seen := by
  refine (monotone_filter_right edges.keys fun x hx => ?_).length_le
  rw [decide_eq_true_eq] at hx ⊢
  exact fun hin => hx (h x hin)

/-- Trying an address that has an entry leaves fewer. -/
theorem untried_lt (haddr : addr ∈ edges.keys) (hnew : addr ∉ seen) :
    edges.untried (addr :: seen) < edges.untried seen := by
  have hsplit : edges.keys.filter (· ∉ addr :: seen) =
      (edges.keys.filter (· ∉ seen)).filter (· ≠ addr) := by
    rw [filter_filter]
    refine filter_congr fun x _ => ?_
    simp
  rw [untried, untried, hsplit]
  refine lt_of_le_of_ne (length_filter_le _ _) fun heq => ?_
  have hall := length_filter_eq_length_iff.mp heq addr (mem_filter.mpr ⟨haddr, by simpa using hnew⟩)
  simp at hall

end Edges

namespace PathSearch

variable {edges : Edges} {goal : Int} {barred : List Int}

/-- An edge that the search has followed: if it ends at the goal its source is on a path, otherwise
its end has been tried. -/
def Followed (goal addr : Int) (s : PathSearch) (next : Int) : Prop :=
  (next = goal → addr ∈ s.onPath) ∧ (next ≠ goal → next ∈ s.seen)

/-- A search has gone on from `s` to `s'`: of what it has tried since, all edges have been followed,
except those from barred addresses. -/
structure Covers (edges : Edges) (goal : Int) (barred : List Int) (s s' : PathSearch) : Prop where
  seen : ∀ x ∈ s.seen, x ∈ s'.seen
  onPath : ∀ x ∈ s.onPath, x ∈ s'.onPath
  followed : ∀ x ∈ s'.seen, x ∈ s.seen ∨ x ∈ barred ∨ ∀ y ∈ edges.getD x [], Followed goal x s' y

theorem Followed.mono (h : Followed goal addr s next) (hseen : ∀ x ∈ s.seen, x ∈ s'.seen)
    (hon : ∀ x ∈ s.onPath, x ∈ s'.onPath) : Followed goal addr s' next :=
  ⟨fun hgoal => hon addr (h.1 hgoal), fun hne => hseen next (h.2 hne)⟩

theorem Covers.refl (s : PathSearch) : Covers edges goal barred s s :=
  ⟨fun _ h => h, fun _ h => h, fun _ h => .inl h⟩

theorem Covers.trans {s₁ s₂ s₃ : PathSearch} (h₁ : Covers edges goal barred s₁ s₂)
    (h₂ : Covers edges goal barred s₂ s₃) : Covers edges goal barred s₁ s₃ where
  seen x hx := h₂.seen x (h₁.seen x hx)
  onPath x hx := h₂.onPath x (h₁.onPath x hx)
  followed x hx := by
    rcases h₂.followed x hx with hx | hx | hx
    · refine (h₁.followed x hx).imp_right (Or.imp_right fun hx y hy => ?_)
      exact (hx y hy).mono h₂.seen h₂.onPath
    · exact .inr (.inl hx)
    · exact .inr (.inr hx)

/-- Putting an address on a path takes nothing back. -/
theorem Covers.mark (h : Covers edges goal barred s s') (addr : Int) :
    Covers edges goal barred s { s' with onPath := s'.onPath.insert addr } where
  seen := h.seen
  onPath x hx := mem_insert_of_mem (h.onPath x hx)
  followed x hx := by
    refine (h.followed x hx).imp_right (Or.imp_right fun hx y hy => ?_)
    exact (hx y hy).mono (fun _ h => h) fun _ h => mem_insert_of_mem h

/-- What the search from an address has to give: everything from there is covered, and the address
is the goal, now on a path, or has been tried. The goal is tried where the search begins there. -/
structure Arrives (edges : Edges) (goal : Int) (barred : List Int) (first : Bool) (addr : Int)
    (s s' : PathSearch) : Prop where
  covers : Covers edges goal barred s s'
  found : (addr = goal && !first) = true → goal ∈ s'.onPath
  tried : (addr = goal && !first) = false → addr ∈ s'.seen

theorem follow_covers (addr : Int) (h : Arrives edges goal barred false next s (search next s)) :
    Covers edges goal barred s (follow search addr s next) ∧
      Followed goal addr (follow search addr s next) next := by
  have htried : next ≠ goal → next ∈ (search next s).seen := fun hne => h.tried (by simp [hne])
  unfold follow
  by_cases hon : next ∈ (search next s).onPath
  · simp only [hon, if_true]
    exact ⟨h.covers.mark addr, fun _ => mem_insert_self, htried⟩
  · simp only [hon, if_false]
    refine ⟨h.covers, fun hgoal => absurd (h.found (by simp [hgoal])) ?_, htried⟩
    rwa [← hgoal]

/-- All edges from an address, with enough steps for each. -/
theorem foldl_follow_covers (bound : Nat)
    (hsearch : ∀ next s, edges.untried s.seen < bound →
      Arrives edges goal barred false next s (search next s)) (addr : Int) :
    ∀ (l : List Int) (s : PathSearch), edges.untried s.seen < bound →
      Covers edges goal barred s (l.foldl (follow search addr) s) ∧
        ∀ y ∈ l, Followed goal addr (l.foldl (follow search addr) s) y := by
  intro l
  induction l with
  | nil => intro s _; exact ⟨Covers.refl s, fun y hy => by cases hy⟩
  | cons next rest ih =>
    intro s hs
    obtain ⟨h₁, hnext⟩ := follow_covers addr (hsearch next s hs)
    obtain ⟨h₂, hrest⟩ := ih _ (lt_of_le_of_lt (Edges.untried_mono h₁.seen) hs)
    exact ⟨h₁.trans h₂, forall_mem_cons.mpr ⟨hnext.mono h₂.seen h₂.onPath, hrest⟩⟩

/-- A search with more steps than addresses left to try. -/
theorem pathsFrom_arrives (edges : Edges) (goal : Int) (barred : List Int) :
    ∀ (fuel : Nat) (first : Bool) (addr : Int) (s : PathSearch), edges.untried s.seen < fuel →
      Arrives edges goal barred first addr s (edges.pathsFrom goal barred fuel first addr s) := by
  intro fuel
  induction fuel with
  | zero => intro first addr s h; omega
  | succ fuel ih =>
    intro first addr s hfuel
    have hkept : ∀ x ∈ s.seen, x ∈ addr :: s.seen := fun x hx => .tail _ hx
    rcases pathsFrom_cases edges goal barred fuel first addr s with
      ⟨rfl, rfl, heq⟩ | ⟨hgoal, hseen, heq⟩ | ⟨hgoal, hseen, hbarred, heq⟩ | ⟨hgoal, hseen, -, heq⟩
    · rw [heq]
      exact ⟨(Covers.refl s).mark addr, fun _ => mem_insert_self, fun hnot => by simp at hnot⟩
    · rw [heq]
      exact ⟨Covers.refl s, fun h => absurd h (Bool.eq_false_iff.mp hgoal), fun _ => hseen⟩
    · rw [heq]
      refine ⟨⟨hkept, fun _ h => h, fun x hx => ?_⟩, fun h => absurd h (Bool.eq_false_iff.mp hgoal),
        fun _ => .head _⟩
      rcases mem_cons.mp hx with rfl | hx
      · exact .inr (.inl hbarred)
      · exact .inl hx
    · rw [heq]
      -- Below an address without an entry there is nothing to search, so no step is needed there.
      have hfold : Covers edges goal barred { s with seen := addr :: s.seen }
            ((edges.getD addr []).foldl (follow (edges.pathsFrom goal barred fuel false) addr)
              { s with seen := addr :: s.seen }) ∧
          ∀ y ∈ edges.getD addr [], Followed goal addr
            ((edges.getD addr []).foldl (follow (edges.pathsFrom goal barred fuel false) addr)
              { s with seen := addr :: s.seen }) y := by
        by_cases hkey : addr ∈ edges.keys
        · have hless := Edges.untried_lt hkey hseen
          exact foldl_follow_covers fuel (ih false) addr _ _ (by dsimp only; omega)
        · rw [OrdMap.getD_of_not_mem hkey]
          exact ⟨Covers.refl _, fun y hy => by cases hy⟩
      obtain ⟨hcovers, hfollowed⟩ := hfold
      refine ⟨⟨fun x hx => hcovers.seen x (hkept x hx), hcovers.onPath, fun x hx => ?_⟩,
        fun h => absurd h (Bool.eq_false_iff.mp hgoal), fun _ => hcovers.seen addr (.head _)⟩
      rcases hcovers.followed x hx with hx | hx | hx
      · rcases mem_cons.mp hx with rfl | hx
        · exact .inr (.inr hfollowed)
        · exact .inl hx
      · exact .inr (.inl hx)
      · exact .inr (.inr hx)

end PathSearch

namespace Edges

open PathSearch

variable {edges : Edges} {goal : Int} {barred : List Int}

/-- Any two numbers of steps that exceed the number of addresses left to try give the same
search. -/
theorem pathsFrom_steps : ∀ (fuel fuel' : Nat) (first : Bool) (addr : Int) (s : PathSearch),
    edges.untried s.seen < fuel → edges.untried s.seen < fuel' →
    edges.pathsFrom goal barred fuel first addr s =
      edges.pathsFrom goal barred fuel' first addr s := by
  intro fuel
  induction fuel with
  | zero => intro fuel' first addr s h; omega
  | succ fuel ih =>
    intro fuel' first addr s h h'
    obtain ⟨fuel', rfl⟩ : ∃ f, fuel' = f + 1 := ⟨fuel' - 1, by omega⟩
    by_cases hgoal : (addr = goal && !first) = true
    · rw [pathsFrom, pathsFrom, if_pos hgoal, if_pos hgoal]
    · by_cases hseen : addr ∈ s.seen
      · rw [pathsFrom, pathsFrom, if_neg hgoal, if_neg hgoal, if_pos hseen, if_pos hseen]
      · by_cases hbarred : addr ∈ barred
        · rw [pathsFrom, pathsFrom, if_neg hgoal, if_neg hgoal, if_neg hseen, if_neg hseen]
          simp only [hbarred, if_true]
        · rw [pathsFrom_of_fresh (Bool.eq_false_iff.mpr hgoal) hseen hbarred,
            pathsFrom_of_fresh (Bool.eq_false_iff.mpr hgoal) hseen hbarred]
          by_cases hkey : addr ∈ edges.keys
          · have hless := untried_lt hkey hseen
            have hfold : ∀ (l : List Int) (s : PathSearch), edges.untried s.seen < fuel →
                edges.untried s.seen < fuel' →
                l.foldl (follow (edges.pathsFrom goal barred fuel false) addr) s =
                  l.foldl (follow (edges.pathsFrom goal barred fuel' false) addr) s := by
              intro l
              induction l with
              | nil => intro s _ _; rfl
              | cons next rest ihl =>
                intro s hs hs'
                have heq : follow (edges.pathsFrom goal barred fuel false) addr s next =
                    follow (edges.pathsFrom goal barred fuel' false) addr s next := by
                  unfold follow
                  rw [ih fuel' false next s hs hs']
                have hcovers := (follow_covers addr
                  (pathsFrom_arrives edges goal barred fuel' false next s hs')).1
                have hmono : edges.untried (follow (edges.pathsFrom goal barred fuel' false) addr s
                    next).seen ≤ edges.untried s.seen := untried_mono hcovers.seen
                rw [foldl_cons, foldl_cons, heq]
                exact ihl _ (lt_of_le_of_lt hmono hs) (lt_of_le_of_lt hmono hs')
            exact hfold _ _ (by dsimp only; omega) (by dsimp only; omega)
          · rw [OrdMap.getD_of_not_mem hkey]
            rfl

/-- An edge that leaves an address that is not barred. -/
def Open (edges : Edges) (barred : List Int) (a b : Int) : Prop := b ∈ edges.getD a [] ∧ a ∉ barred

/-- An edge along which the search goes on: it leaves an address that is not barred and does not end
at the goal. -/
def Onward (edges : Edges) (goal : Int) (barred : List Int) (a b : Int) : Prop :=
  edges.Open barred a b ∧ b ≠ goal

/-- The search is made with steps enough. -/
theorem untried_lt_steps (edges : Edges) : edges.untried [] < edges.size + 2 :=
  Nat.lt_of_le_of_lt (edges.untried_le_size []) (by omega)

/-- What the search goes on to is tried, and all its edges are followed. -/
theorem followed_of_reached {source x : Int}
    (hway : Relation.ReflTransGen (edges.Onward goal barred) source x) :
    x ∈ (edges.pathsFrom goal barred (edges.size + 2) true source ⟨[], []⟩).seen ∧ (x ∉ barred →
      ∀ y ∈ edges.getD x [], Followed goal x
        (edges.pathsFrom goal barred (edges.size + 2) true source ⟨[], []⟩) y) := by
  have harrives := pathsFrom_arrives edges goal barred _ true source ⟨[], []⟩ edges.untried_lt_steps
  have hfollowed : ∀ x ∈ (edges.pathsFrom goal barred (edges.size + 2) true source ⟨[], []⟩).seen,
      x ∉ barred → ∀ y ∈ edges.getD x [], Followed goal x
        (edges.pathsFrom goal barred (edges.size + 2) true source ⟨[], []⟩) y :=
    fun x hx hopen => ((harrives.covers.followed x hx).resolve_left not_mem_nil).resolve_left hopen
  have hseen : x ∈ (edges.pathsFrom goal barred (edges.size + 2) true source ⟨[], []⟩).seen := by
    induction hway with
    | refl => exact harrives.tried (by simp)
    | tail _ hedge ih => exact (hfollowed _ ih hedge.1.2 _ hedge.1.1).2 hedge.2
  exact ⟨hseen, hfollowed x hseen⟩

/-- If open edges lead from an address round to an edge back to it, the source of this edge is on a
path. -/
theorem mem_paths_of_reach {start p : Int}
    (hreach : Relation.ReflTransGen (edges.Open barred) start p)
    (hback : edges.Open barred p start) : p ∈ edges.paths start start barred := by
  -- The way may lead over the start again; then what comes before is left out.
  have hway : Relation.ReflTransGen (edges.Onward start barred) start p := by
    clear hback
    induction hreach with
    | refl => exact .refl
    | @tail b c _ hedge ih =>
      by_cases hc : c = start
      · exact hc ▸ .refl
      · exact ih.tail ⟨hedge, hc⟩
  exact ((followed_of_reached hway).2 hback.2 start hback.1).1 rfl

end Edges

end Decompiler
