import Decompiler.Proofs.JoinSteps
/-!
# Answers to questions about paths

Whether one address leads to another is answered from memory or by a depth-first search, in which
all branches share what has been tried. `Edges.Searched` gives the rules of this search without a
bound on its steps. Every search comes to one end (`Edges.searched_reachFrom`,
`Edges.Searched.unique`). Not to go on from what was tried hides no way: where the goal is not
found, the addresses tried are closed under edges and the goal is none of them
(`Edges.Searched.exhausts`). So the answers to any number of questions, asked one after the other,
are right (`Edges.path_answers_exact`).
-/

namespace Decompiler.Edges

open List

variable {edges : Edges} {goal addr : Int} {l rest seen seen' seen'' : List Int}
  {answer answer' : Bool}

def Link (edges : Edges) (a b : Int) : Prop := b ∈ edges.getD a []

/-- The search from some addresses, one after the other, ends with an answer. Before it `seen` have
been tried, and by its end `seen'` have. -/
inductive Searched (edges : Edges) (goal : Int) :
    List Int → (seen : List Int) → Bool → (seen' : List Int) → Prop
  | nil {seen : List Int} : Searched edges goal [] seen false seen
  | found {rest seen : List Int} : Searched edges goal (goal :: rest) seen true seen
  /-- From an address that was tried nothing more is to be found. -/
  | tried {addr : Int} {rest seen seen' : List Int} {answer : Bool} (hne : addr ≠ goal)
      (hseen : addr ∈ seen) (hrest : Searched edges goal rest seen answer seen') :
      Searched edges goal (addr :: rest) seen answer seen'
  /-- The goal is found below an address, and what comes after it is left out. -/
  | deeper {addr : Int} {rest seen seen' : List Int} (hne : addr ≠ goal) (hnew : addr ∉ seen)
      (hdown : Searched edges goal (edges.getD addr []) (addr :: seen) true seen') :
      Searched edges goal (addr :: rest) seen true seen'
  | past {addr : Int} {rest seen seen' seen'' : List Int} {answer : Bool} (hne : addr ≠ goal)
      (hnew : addr ∉ seen)
      (hdown : Searched edges goal (edges.getD addr []) (addr :: seen) false seen')
      (hrest : Searched edges goal rest seen' answer seen'') :
      Searched edges goal (addr :: rest) seen answer seen''

/-! ## The search ends -/

/-- The rules leave no choice. -/
theorem Searched.unique (h : edges.Searched goal l seen answer seen')
    (h' : edges.Searched goal l seen answer' seen'') : answer = answer' ∧ seen' = seen'' := by
  induction h generalizing answer' seen'' with
  | nil =>
    cases h'
    exact ⟨rfl, rfl⟩
  | found =>
    cases h' with
    | found => exact ⟨rfl, rfl⟩
    | tried hne | deeper hne | past hne => exact absurd rfl hne
  | tried hne hseen _ ih =>
    cases h' with
    | found => exact absurd rfl hne
    | tried _ _ hrest => exact ih hrest
    | deeper _ hnew | past _ hnew => exact absurd hseen hnew
  | deeper hne hnew _ ih =>
    cases h' with
    | found => exact absurd rfl hne
    | tried _ hseen => exact absurd hseen hnew
    | deeper _ _ hdown => exact ih hdown
    | past _ _ hdown => cases (ih hdown).1
  | past hne hnew _ _ ihdown ihrest =>
    cases h' with
    | found => exact absurd rfl hne
    | tried _ hseen => exact absurd hseen hnew
    | deeper _ _ hdown => cases (ihdown hdown).1
    | past _ _ hdown hrest =>
      obtain ⟨-, rfl⟩ := ihdown hdown
      exact ihrest hrest

theorem Searched.subset (h : edges.Searched goal l seen answer seen') : seen ⊆ seen' := by
  induction h with
  | nil | found => exact List.Subset.refl _
  | tried _ _ _ ih => exact ih
  | deeper _ _ _ ih => exact List.Subset.trans (subset_cons_self _ _) ih
  | past _ _ _ _ ihdown ihrest =>
    exact List.Subset.trans (subset_cons_self _ _) (List.Subset.trans ihdown ihrest)

/-- What is found from an address is found from it and others. -/
theorem Searched.cons_of_found (h : edges.Searched goal [addr] seen true seen') :
    edges.Searched goal (addr :: rest) seen true seen' := by
  cases h with
  | found => exact .found
  | tried _ _ hrest | past _ _ _ hrest => cases hrest
  | deeper hne hnew hdown => exact .deeper hne hnew hdown

/-- Where nothing is found from an address, the search goes on with the others. -/
theorem Searched.cons_of_missed (h : edges.Searched goal [addr] seen false seen')
    (h' : edges.Searched goal rest seen' answer seen'') :
    edges.Searched goal (addr :: rest) seen answer seen'' := by
  cases h with
  | tried hne hseen hrest =>
    cases hrest
    exact .tried hne hseen h'
  | past hne hnew hdown hrest =>
    cases hrest
    exact .past hne hnew hdown h'

theorem foldl_tryNext_found (search : Int → List Int → Bool × List Int) (l : List Int)
    (seen : List Int) : l.foldl (tryNext search) (true, seen) = (true, seen) := by
  induction l with
  | nil => rfl
  | cons next rest ih => exact ih

/-- The edges of an address one after the other, with steps enough for each. -/
theorem searched_foldl {search : Int → List Int → Bool × List Int} {bound : Nat}
    (hsearch : ∀ next seen, edges.untried seen < bound →
      edges.Searched goal [next] seen (search next seen).1 (search next seen).2) :
    ∀ (l seen : List Int), edges.untried seen < bound →
      edges.Searched goal l seen (l.foldl (tryNext search) (false, seen)).1
        (l.foldl (tryNext search) (false, seen)).2 := by
  intro l
  induction l with
  | nil => exact fun seen _ => .nil
  | cons next rest ih =>
    intro seen hseen
    have hnext := hsearch next seen hseen
    have hstep : tryNext search (false, seen) next = search next seen := rfl
    rw [foldl_cons, hstep]
    generalize search next seen = found at hnext ⊢
    obtain ⟨answer, seen'⟩ := found
    cases answer with
    | true =>
      rw [foldl_tryNext_found]
      exact hnext.cons_of_found
    | false =>
      exact hnext.cons_of_missed (ih seen' (lt_of_le_of_lt (untried_mono hnext.subset) hseen))

/-- With more steps than there are addresses left to try, `reachFrom` is the search by the rules. -/
theorem searched_reachFrom :
    ∀ (fuel : Nat) (addr : Int) (seen : List Int), edges.untried seen < fuel →
    edges.Searched goal [addr] seen (edges.reachFrom goal fuel addr seen).1
      (edges.reachFrom goal fuel addr seen).2 := by
  intro fuel
  induction fuel with
  | zero => intro addr seen h; omega
  | succ fuel ih =>
    intro addr seen hfuel
    rw [reachFrom_succ]
    by_cases hgoal : addr = goal
    · rw [if_pos hgoal, hgoal]
      exact .found
    rw [if_neg hgoal]
    by_cases hseen : addr ∈ seen
    · rw [if_pos hseen]
      exact .tried hgoal hseen .nil
    rw [if_neg hseen]
    have hdown : edges.Searched goal (edges.getD addr []) (addr :: seen)
        ((edges.getD addr []).foldl (tryNext (edges.reachFrom goal fuel)) (false, addr :: seen)).1
        ((edges.getD addr []).foldl (tryNext (edges.reachFrom goal fuel)) (false,
          addr :: seen)).2 := by
      by_cases hkey : addr ∈ edges.keys
      · have hless := untried_lt hkey hseen
        exact searched_foldl ih _ _ (by omega)
      · -- Below an address without an entry there is nothing to search.
        rw [OrdMap.getD_of_not_mem hkey]
        exact .nil
    generalize (edges.getD addr []).foldl (tryNext (edges.reachFrom goal fuel))
      (false, addr :: seen) = found at hdown ⊢
    obtain ⟨answer, seen'⟩ := found
    cases answer with
    | true => exact .deeper hgoal hseen hdown
    | false => exact .past hgoal hseen hdown .nil

/-- Any two numbers of steps that exceed the number of addresses left to try give the same
search. -/
theorem reachFrom_steps (fuel fuel' : Nat) (addr : Int) (seen : List Int)
    (h : edges.untried seen < fuel) (h' : edges.untried seen < fuel') :
    edges.reachFrom goal fuel addr seen = edges.reachFrom goal fuel' addr seen := by
  obtain ⟨hanswer, hseen⟩ :=
    (searched_reachFrom fuel addr seen h).unique (searched_reachFrom fuel' addr seen h')
  exact Prod.ext hanswer hseen

/-! ## What the answer says -/

/-- The goal is found only where there is a way to it. -/
theorem Searched.leads (h : edges.Searched goal l seen answer seen') (hanswer : answer = true) :
    ∃ a ∈ l, Relation.ReflTransGen edges.Link a goal := by
  induction h with
  | nil => cases hanswer
  | found => exact ⟨_, .head _, .refl⟩
  | tried _ _ _ ih | past _ _ _ _ _ ih =>
    obtain ⟨a, ha, hway⟩ := ih hanswer
    exact ⟨a, .tail _ ha, hway⟩
  | deeper _ _ _ ih =>
    obtain ⟨next, hlink, hway⟩ := ih hanswer
    exact ⟨_, .head _, .head hlink hway⟩

/-- A search has tried all its addresses, and of what it has tried since it began all that edges
lead to; the goal was not among it. -/
structure Exhausted (edges : Edges) (goal : Int) (l seen seen' : List Int) : Prop where
  tried : ∀ a ∈ l, a ∈ seen'
  closed : ∀ a ∈ seen', a ∈ seen ∨ a ≠ goal ∧ ∀ b, edges.Link a b → b ∈ seen'

/-- Where the goal is not found, everything has been tried. The branches of the search share what
they have tried, so what one of them leaves out has been seen to by another, which may not have come
to its end yet. -/
theorem Searched.exhausts (h : edges.Searched goal l seen answer seen') (hanswer : answer = false) :
    Exhausted edges goal l seen seen' := by
  induction h with
  | nil => exact ⟨forall_mem_nil _, fun a ha => .inl ha⟩
  | found | deeper => cases hanswer
  | tried _ hseen hrest ih =>
    obtain ⟨htried, hclosed⟩ := ih hanswer
    exact ⟨forall_mem_cons.mpr ⟨hrest.subset hseen, htried⟩, hclosed⟩
  | @past addr rest seen seen₁ seen₂ answer hne hnew hdown hrest ihdown ihrest =>
    obtain ⟨hbelow, hdownClosed⟩ := ihdown rfl
    obtain ⟨htried, hclosed⟩ := ihrest hanswer
    refine ⟨forall_mem_cons.mpr ⟨hrest.subset (hdown.subset (.head _)), htried⟩, fun a ha => ?_⟩
    rcases hclosed a ha with ha | ha
    · rcases hdownClosed a ha with ha | ⟨hgoal, hlinks⟩
      · rcases mem_cons.mp ha with rfl | ha
        · -- All that edges from the address itself lead to was tried below it.
          exact .inr ⟨hne, fun b hlink => hrest.subset (hbelow b hlink)⟩
        · exact .inl ha
      · exact .inr ⟨hgoal, fun b hlink => hrest.subset (hlinks b hlink)⟩
    · exact .inr ha

/-- From what has been tried no way leads to the goal. -/
theorem Exhausted.not_leads (h : Exhausted edges goal l [] seen) {a b : Int} (ha : a ∈ l)
    (hway : Relation.ReflTransGen edges.Link a b) : b ∈ seen ∧ b ≠ goal := by
  have hkept : ∀ x ∈ seen, x ≠ goal ∧ ∀ y, edges.Link x y → y ∈ seen :=
    fun x hx => (h.closed x hx).resolve_left not_mem_nil
  have hseen : b ∈ seen := by
    induction hway with
    | refl => exact h.tried a ha
    | tail _ hlink ih => exact (hkept _ ih).2 _ hlink
  exact ⟨hseen, (hkept b hseen).1⟩

theorem searched_reaches (edges : Edges) (a b : Int) :
    edges.Searched b [a] [] (edges.reaches a b) (edges.reachFrom b (edges.size + 2) a []).2 :=
  searched_reachFrom _ a [] edges.untried_lt_steps

theorem reaches_iff (edges : Edges) (a b : Int) :
    edges.reaches a b = true ↔ Relation.ReflTransGen edges.Link a b := by
  have hsearched := edges.searched_reaches a b
  constructor
  · intro hfound
    obtain ⟨a', ha', hway⟩ := hsearched.leads hfound
    exact mem_singleton.mp ha' ▸ hway
  · intro hway
    by_contra hmissed
    exact ((hsearched.exhausts (Bool.eq_false_iff.mpr hmissed)).not_leads (.head _) hway).2 rfl

/-! ## Questions one after the other -/

/-- The answers to questions that are asked one after the other; each answer is kept for the
questions that follow. -/
def answers (edges : Edges) (memo : PathMemo) : List (Int × Int) → List Bool
  | [] => []
  | (a, b) :: rest =>
    (edges.reachesMemo memo a b).1 :: edges.answers (edges.reachesMemo memo a b).2 rest

/-- What is kept makes no difference to the answers. -/
theorem Truthful.answers {memo : PathMemo} (h : edges.Truthful memo)
    (questions : List (Int × Int)) :
    edges.answers memo questions = questions.map fun q => edges.reaches q.1 q.2 := by
  induction questions generalizing memo with
  | nil => rfl
  | cons q rest ih =>
    obtain ⟨hanswer, hkept⟩ := h.reachesMemo q.1 q.2
    rw [map_cons, ← ih hkept, ← hanswer]
    rfl

/-- Every search comes to one end, with one answer. And of any questions that are asked one after
the other, the answer to each is that there is a path exactly if edges lead from the one address to
the other, in any number of steps. -/
theorem path_answers_exact (edges : Edges) (questions : List (Int × Int)) :
    (∀ a b, ∃ tried, ∀ answer tried',
      edges.Searched b [a] [] answer tried' ↔ answer = edges.reaches a b ∧ tried' = tried) ∧
    List.Forall₂ (fun q answer => answer = true ↔ Relation.ReflTransGen edges.Link q.1 q.2)
      questions (edges.answers ∅ questions) := by
  constructor
  · intro a b
    have hsearched := edges.searched_reaches a b
    refine ⟨_, fun answer tried' => ⟨fun h => h.unique hsearched, ?_⟩⟩
    rintro ⟨rfl, rfl⟩
    exact hsearched
  · rw [(Truthful.empty edges).answers, forall₂_map_right_iff, forall₂_same]
    exact fun q _ => edges.reaches_iff q.1 q.2

end Decompiler.Edges
