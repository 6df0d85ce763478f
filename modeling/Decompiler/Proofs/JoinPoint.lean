import Decompiler.Tree.JoinPoint
import Decompiler.Proofs.Exploration
/-!
# The search for the join of two ways comes to an end

On a well formed graph the search has steps enough: every walk enters each node once, every round
ends the waiting of a node, and what cannot be reached is dropped at one go, since answers about
paths do not change. One look-up may fail: a node that waits for several predecessors is reached
first by one that it does not wait for (`joinPoint_meets`).

What cannot be reached may be dropped in any order (`Prunes`): what is left to wait for, and whether
it has to be looked at again, is the same in every order (`Prunes.spec`).
-/

namespace Decompiler

open List OrdMap

/-- An edge that leads to a node which has to wait for several predecessors, but not for this
one. -/
def Scope.Unawaited (g : Graph) (nest : LoopNest) (scope : Scope) (p addr : Int) : Prop :=
  g.Edge p addr ∧ 1 < (scope.awaited g nest addr).length ∧ p ∉ scope.awaited g nest addr

namespace JoinPoint

open Exploration (Walk Frees releases_release)

variable {g : Graph} {nest : LoopNest} {scope : Scope} {source : Int} {s s' : Search}

/-- The cause of a failure: an edge arrives that is not waited for. -/
def ArrivesUnawaited (g : Graph) (nest : LoopNest) (scope : Scope) (e : Fault) : Prop :=
  ∃ p addr, e = .notAwaited addr ∧ scope.Unawaited g nest p addr

/-! ## Walks -/

/-- The search as a walk that is bound to no region. -/
def Search.toWalk (s : Search) : Walk := ⟨s.stack, s.visited, s.done, s.waiting⟩

/-- A search as it comes about. -/
structure Search.Fits (g : Graph) (s : Search) : Prop where
  walk : s.toWalk.Fits g
  keys : s.waiting.keys.Nodup

/-- The search from a node before its first step. -/
def Search.start (g : Graph) (source : Int) : Search :=
  ⟨((g.next source).map fun n => (some source, n)).reverse, [], [], ∅⟩

theorem Search.start_fits (g : Graph) (source : Int) : (start g source).Fits g :=
  ⟨Walk.Fits.start source (.nil g) (.nil g) (forall_mem_nil _), nodup_nil⟩

/-- Follows one edge that has been taken off the stack. -/
def takeEdge (g : Graph) (nest : LoopNest) (scope : Scope) (s : Search) (e : Option Int × Int) :
    Except Fault Search :=
  if leftAside nest scope e.2 then .ok s
  else do
    match ← holdUp g nest scope s e.2 with
    | some missing => arrive s e.1 e.2 missing
    | none =>
      if e.2 ∈ s.visited then return s
      else
        return { s with
          visited := e.2 :: s.visited
          stack := ((g.next e.2).map fun n => (some e.2, n)).reverse ++ s.stack }

theorem drain_of_nil (hstack : s.stack = []) (fuel : Nat) :
    drain g nest scope (fuel + 1) s = .ok s := by
  rw [drain, hstack]

variable {e : Option Int × Int} {rest : List (Option Int × Int)} {memo : PathMemo}
  {waiting : OrdMap Int (List Int)} {r : Pruning (OrdMap Int (List Int))}

theorem drain_of_cons (hstack : s.stack = e :: rest) (fuel : Nat) :
    drain g nest scope (fuel + 1) s =
      takeEdge g nest scope { s with stack := rest } e >>= drain g nest scope fuel := by
  obtain ⟨source, addr⟩ := e
  rw [drain, hstack]
  unfold takeEdge
  dsimp only
  split
  · rfl
  · cases holdUp g nest scope { s with stack := rest } addr with
    | error fault => rfl
    | ok r =>
      cases r with
      | some missing => rfl
      | none =>
        simp only [bind, Except.bind]
        split
        · rfl
        · rfl

/-- What following an edge can do: nothing, let a node wait that is not done, or visit a new
node. -/
theorem takeEdge_cases (h : takeEdge g nest scope s e = .ok s') :
    s' = s ∨ (e.2 ∉ s.done ∧ ∃ missing, s' = { s with waiting := s.waiting.insert e.2 missing }) ∨
      (e.2 ∉ s.visited ∧ s' = { s with
        visited := e.2 :: s.visited
        stack := ((g.next e.2).map fun n => (some e.2, n)).reverse ++ s.stack }) := by
  unfold takeEdge at h
  split at h
  · exact .inl (Except.ok.inj h).symm
  · obtain ⟨r, hhold, h⟩ := Except.bind_eq_ok.mp h
    cases r with
    | some missing =>
      have hundone : e.2 ∉ s.done := by
        intro hdone
        rw [holdUp, if_pos hdone] at hhold
        cases hhold
      refine .inr (.inl ⟨hundone, ?_⟩)
      dsimp only at h
      unfold arrive at h
      split at h
      · exact ⟨_, (Except.ok.inj h).symm⟩
      · split at h
        · split at h
          · exact ⟨_, (Except.ok.inj h).symm⟩
          · cases h
        · cases h
    | none =>
      dsimp only at h
      split at h
      · exact .inl (Except.ok.inj h).symm
      · rename_i hnew
        exact .inr (.inr ⟨hnew, (Except.ok.inj h).symm⟩)

theorem Search.Fits.takeEdge (h : s.Fits g) (hstack : s.stack = e :: rest)
    (htake : takeEdge g nest scope { s with stack := rest } e = .ok s') :
    s'.Fits g ∧ s'.done = s.done ∧ s'.toWalk.load g < s.toWalk.load g := by
  have hpop : Walk.Fits g ⟨rest, s.visited, s.done, s.waiting⟩ := h.walk.pop hstack
  have hload : s.toWalk.load g = rest.length + 1 + g.edgesLeft s.visited := by
    rw [Walk.load, Search.toWalk, hstack]
    rfl
  rcases takeEdge_cases htake with rfl | ⟨hundone, missing, rfl⟩ | ⟨hnew, rfl⟩
  · refine ⟨⟨hpop, h.keys⟩, rfl, ?_⟩
    rw [hload]
    exact Nat.add_lt_add_right (Nat.lt_succ_self _) _
  · refine ⟨⟨h.walk.wait hstack hundone missing, nodup_keys_insert h.keys _ _⟩, rfl, ?_⟩
    rw [hload]
    exact Nat.add_lt_add_right (Nat.lt_succ_self _) _
  · refine ⟨⟨{ hpop with
      visited := h.walk.visited.cons hnew (h.walk.place (e := e) (hstack ▸ .head _ : e ∈ s.stack))
      stack := forall_mem_append.mpr ⟨fun e' he' => ?_, hpop.stack⟩ }, h.keys⟩, rfl, ?_⟩
    · obtain ⟨n, hn, rfl⟩ := mem_map.mp (mem_reverse.mp he')
      exact .inl ⟨e.2, rfl, hn⟩
    · have hleft := Graph.edgesLeft_visit (g := g) hnew
      rw [hload]
      simp only [Walk.load, Search.toWalk, length_append, length_reverse, length_map]
      dsimp only at hleft
      omega

theorem holdUp_eq_ok (nest : LoopNest) (scope : Scope) {addr : Int}
    (h : addr ∈ s.done ∨ addr ∈ g.preds.keys) :
    ∃ r, holdUp g nest scope s addr = .ok r ∧
      ∀ missing, r = some missing → addr ∉ s.done ∧ missing = scope.awaited g nest addr ∧
        1 < missing.length := by
  unfold holdUp
  by_cases hdone : addr ∈ s.done
  · exact ⟨none, by simp only [hdone, if_true], fun _ h => by cases h⟩
  · obtain ⟨preds, hp⟩ := mem_keys.mp (h.resolve_left hdone)
    rw [if_neg hdone, hp]
    dsimp only
    split
    · refine ⟨_, rfl, fun missing hm => ?_⟩
      split at hm
      · rename_i hlen
        obtain rfl := Option.some.inj hm
        exact ⟨hdone, rfl, hlen⟩
      · cases hm
    · exact ⟨none, rfl, fun _ h => by cases h⟩

theorem arrive_meets {p addr : Int} (hedge : g.Edge p addr)
    (hlen : 1 < (scope.awaited g nest addr).length) :
    Meets (fun _ => True) (ArrivesUnawaited g nest scope)
      (arrive s (some p) addr (scope.awaited g nest addr)) := by
  unfold arrive
  cases hw : s.waiting.get? addr with
  | some rest => trivial
  | none =>
    by_cases hp : p ∈ scope.awaited g nest addr
    · simp only [hp, if_true]
      trivial
    · simp only [hp, if_false]
      exact ⟨p, addr, rfl, hedge, hlen, hp⟩

/-- On a well formed graph only an edge that is not waited for cannot be followed. -/
theorem takeEdge_meets (hg : g.WellFormed) (nest : LoopNest) (scope : Scope) (h : s.Fits g)
    (hstack : s.stack = e :: rest) :
    Meets (fun _ => True) (ArrivesUnawaited g nest scope)
      (takeEdge g nest scope { s with stack := rest } e) := by
  have hmem : e ∈ s.toWalk.stack := (hstack ▸ .head _ : e ∈ s.stack)
  have hknown : e.2 ∈ s.done ∨ e.2 ∈ g.preds.keys := by
    rcases h.walk.stack e hmem with ⟨p, -, hedge⟩ | ⟨-, hdone⟩
    · exact .inr (Graph.mem_preds_keys hg hedge)
    · exact .inl hdone
  unfold takeEdge
  split
  · trivial
  · obtain ⟨r, hr, hsome⟩ := holdUp_eq_ok nest scope (s := { s with stack := rest }) hknown
    simp only [hr, bind, Except.bind]
    cases r with
    | some missing =>
      obtain ⟨hnotDone, rfl, hlen⟩ := hsome missing rfl
      rcases h.walk.stack e hmem with ⟨p, hp, hedge⟩ | ⟨-, hdone⟩
      · rw [hp]
        exact arrive_meets hedge hlen
      · exact absurd hdone hnotDone
    | none =>
      dsimp only
      split
      · trivial
      · trivial

theorem drain_meets (hg : g.WellFormed) (nest : LoopNest) (scope : Scope) :
    ∀ (fuel : Nat) (s : Search), s.Fits g → s.toWalk.load g < fuel →
    Meets (fun s' => s'.Fits g ∧ s'.stack = [] ∧ s'.done = s.done) (ArrivesUnawaited g nest scope)
      (drain g nest scope fuel s) := by
  intro fuel
  induction fuel with
  | zero => intro s _ hfuel; omega
  | succ fuel ih =>
    intro s hs hfuel
    cases hstack : s.stack with
    | nil =>
      rw [drain_of_nil hstack]
      exact ⟨hs, hstack, rfl⟩
    | cons e rest =>
      rw [drain_of_cons hstack]
      have htaken := takeEdge_meets hg nest scope hs hstack
      cases htake : takeEdge g nest scope { s with stack := rest } e with
      | error fault =>
        rw [htake] at htaken
        exact htaken
      | ok s₁ =>
        obtain ⟨hs₁, hdone, hload⟩ := hs.takeEdge hstack htake
        exact (ih s₁ hs₁ (by omega)).mono fun s' h => ⟨h.1, h.2.1, h.2.2.trans hdone⟩

theorem toWalk_release (s : Search) : (release s).toWalk = Exploration.release none s.toWalk := by
  have hfold : ∀ (l : List (Int × List Int)) (s : Search),
      (l.foldl letGo s).toWalk = l.foldl (Exploration.letGo none) s.toWalk := by
    intro l
    induction l with
    | nil => intro s; rfl
    | cons e l ih =>
      intro s
      rw [foldl_cons, foldl_cons, ih]
      congr 1
      by_cases he : e.2.isEmpty = true
      · simp [letGo, Exploration.letGo, he, Search.toWalk, Region.holds]
      · simp [letGo, Exploration.letGo, he, Region.holds]
  exact hfold s.waiting.entries s

/-- Exactly those nodes go on that wait for nothing. -/
theorem release_frees (s : Search) :
    Frees (fun a => (a, []) ∈ s.waiting.entries) s.toWalk (release s).toWalk := by
  have hfrees := (releases_release none s.toWalk).frees
  simp only [Region.holds, Option.all_none, true_and] at hfrees
  rw [toWalk_release]
  exact hfrees

/-- The search `s` has gone on to `s'`. If there is something to follow then, more is done than
before. -/
structure Goes (g : Graph) (s s' : Search) : Prop where
  fits : s'.Fits g
  length : s.done.length ≤ s'.done.length
  more : s'.stack ≠ [] → s.done.length < s'.done.length

theorem Search.Fits.release (h : s.Fits g) (hstack : s.stack = []) : Goes g s (release s) := by
  obtain ⟨hwalk, hlength, hmore⟩ := h.walk.releases (releases_release none s.toWalk)
  rw [← toWalk_release] at hwalk hlength hmore
  exact ⟨⟨hwalk, (release_frees s).keys_nodup h.keys⟩, hlength, hmore hstack⟩

/-- What still waits after nodes were let go waited for the same before. -/
theorem get?_release {k : Int} {l : List Int} (h : (release s).waiting.get? k = some l) :
    s.waiting.get? k = some l := by
  by_cases hgone : (k, []) ∈ s.waiting.entries
  · rw [show (release s).waiting.get? k = none from (release_frees s).freed k hgone] at h
    cases h
  · exact ((release_frees s).kept k hgone).symm.trans h

/-! ## Dropping what cannot be reached -/

/-- The answer to the question whether an address can be reached from the source. -/
def answer (g : Graph) (source : Int) (memo : PathMemo) (p : Int) : Bool :=
  (g.succs.reachesMemo memo source p).1

/-- While answers about paths are kept that satisfy `M`, every question from the source is answered
by `ans`. -/
structure Answered (g : Graph) (source : Int) (M : PathMemo → Prop) (ans : Int → Bool) : Prop where
  answer_eq : ∀ {memo : PathMemo}, M memo → ∀ p, answer g source memo p = ans p
  kept : ∀ {memo : PathMemo}, M memo → ∀ p, M (g.succs.reachesMemo memo source p).2

/-- Asking about one address does not change the answer about another. -/
theorem answer_memo (g : Graph) (source : Int) (memo : PathMemo) (p q : Int) :
    answer g source (g.succs.reachesMemo memo source q).2 p = answer g source memo p := by
  unfold answer Edges.reachesMemo
  cases hq : memo.get? (source, q) with
  | some a => rfl
  | none =>
    simp only [OrdMap.get?_insert]
    by_cases hpq : q = p
    · subst hpq
      simp [hq]
    · cases hp : memo.get? (source, p) <;> simp [hpq]

/-- Whatever answers are kept at first, they go on to be given. -/
theorem answered_as (g : Graph) (source : Int) (memo : PathMemo) :
    Answered g source (fun m => ∀ p, answer g source m p = answer g source memo p)
      (answer g source memo) where
  answer_eq h := h
  kept h q p := (answer_memo g source _ p q).trans (h p)

/-- Stops waiting at one node for predecessors that cannot be reached, looking at them in the order
`turns`. -/
def pruneNodeIn (g : Graph) (source : Int) (acc : Pruning (OrdMap Int (List Int)))
    (e : Int × List Int) (turns : List Int) : Pruning (OrdMap Int (List Int)) :=
  let missing := turns.foldl (prunePred g source) ⟨e.2, false, acc.memo⟩
  let waiting :=
    if missing.kept.isEmpty && !e.2.isEmpty then acc.kept.erase e.1
      else acc.kept.insert e.1 missing.kept
  ⟨waiting, acc.again || missing.again, missing.memo⟩

theorem pruneNode_eq (acc : Pruning (OrdMap Int (List Int))) (e : Int × List Int) :
    pruneNode g source acc e = pruneNodeIn g source acc e e.2 := rfl

/-- A clearing that looks at nodes in the given order, and at the predecessors of each in some
order. -/
inductive Clears (g : Graph) (source : Int) :
    List (Int × List Int) → Pruning (OrdMap Int (List Int)) → Pruning (OrdMap Int (List Int)) → Prop
  | nil (acc : Pruning (OrdMap Int (List Int))) : Clears g source [] acc acc
  | cons {e : Int × List Int} {rest : List (Int × List Int)}
    {acc acc' : Pruning (OrdMap Int (List Int))} {turns : List Int} : turns.Perm e.2 →
    Clears g source rest (pruneNodeIn g source acc e turns) acc' →
    Clears g source (e :: rest) acc acc'

/-- A clearing that looks at nodes and predecessors in some order. -/
def Prunes (g : Graph) (source : Int) (memo : PathMemo) (waiting : OrdMap Int (List Int))
    (r : Pruning (OrdMap Int (List Int))) : Prop :=
  ∃ order : List (Int × List Int), order.Perm waiting.entries ∧
    Clears g source order ⟨waiting, false, memo⟩ r

theorem prunes_prune (g : Graph) (source : Int) (memo : PathMemo)
    (waiting : OrdMap Int (List Int)) :
    Prunes g source memo waiting (prune g source memo waiting) := by
  refine ⟨waiting.entries, .refl _, ?_⟩
  have hfold : ∀ (l : List (Int × List Int)) (acc : Pruning (OrdMap Int (List Int))),
      Clears g source l acc (l.foldl (pruneNode g source) acc) := by
    intro l
    induction l with
    | nil => exact .nil
    | cons e rest ih =>
      intro acc
      rw [foldl_cons, pruneNode_eq]
      exact .cons (.refl _) (ih _)
  exact hfold _ _

/-- What is left of an entry without what cannot be reached. It goes if there is nothing left by
that. -/
def clearEntry (ans : Int → Bool) (e : Int × List Int) : Option (Int × List Int) :=
  if (e.2.filter ans).isEmpty && !e.2.isEmpty then none else some (e.1, e.2.filter ans)

theorem clearEntry_eq_some {ans : Int → Bool} {e e' : Int × List Int}
    (h : clearEntry ans e = some e') : e' = (e.1, e.2.filter ans) := by
  unfold clearEntry at h
  split at h
  · cases h
  · exact (Option.some.inj h).symm

/-- Whether an entry asks for another look: something is taken away, and it was not the only one. -/
def looksAgain (ans : Int → Bool) (e : Int × List Int) : Bool :=
  1 < e.2.length && e.2.any fun p => !ans p

variable {M : PathMemo → Prop} {ans : Int → Bool}

theorem foldl_prunePred_spec (h : Answered g source M ans) (turns : List Int)
    (acc : Pruning (List Int)) (hacc : M acc.memo) :
    M (turns.foldl (prunePred g source) acc).memo ∧
      (turns.foldl (prunePred g source) acc).kept = acc.kept.diff (turns.filter fun p => !ans p) ∧
      (turns.foldl (prunePred g source) acc).again =
        (acc.again || (1 < acc.kept.length && turns.any fun p => !ans p)) := by
  induction turns generalizing acc with
  | nil => exact ⟨hacc, rfl, by simp⟩
  | cons q rest ih =>
    have hq : (g.succs.reachesMemo acc.memo source q).1 = ans q := h.answer_eq hacc q
    have hmemo := h.kept hacc q
    rw [foldl_cons]
    cases hans : ans q with
    | true =>
      have hstep : prunePred g source acc q =
          { acc with memo := (g.succs.reachesMemo acc.memo source q).2 } := by
        simp only [prunePred, hq, hans, if_true]
      obtain ⟨h₁, h₂, h₃⟩ := ih { acc with memo := (g.succs.reachesMemo acc.memo source q).2 } hmemo
      rw [hstep, filter_cons_of_neg (by simp [hans])]
      exact ⟨h₁, h₂, by rw [h₃]; simp [hans]⟩
    | false =>
      have hstep : prunePred g source acc q = ⟨acc.kept.erase q, acc.again || 1 < acc.kept.length,
          (g.succs.reachesMemo acc.memo source q).2⟩ := by
        simp only [prunePred, hq, hans, Bool.false_eq_true, if_false]
      obtain ⟨h₁, h₂, h₃⟩ := ih ⟨acc.kept.erase q, acc.again || 1 < acc.kept.length,
        (g.succs.reachesMemo acc.memo source q).2⟩ hmemo
      rw [hstep, filter_cons_of_pos (by simp [hans]), diff_cons]
      refine ⟨h₁, h₂, ?_⟩
      -- What is taken away later was not the only one either, if there is any such.
      have hless : 1 < (acc.kept.erase q).length → 1 < acc.kept.length :=
        fun hlt => lt_of_lt_of_le hlt erase_sublist.length_le
      rw [h₃, any_cons, hans]
      by_cases hlen : 1 < acc.kept.length
      · simp [hlen]
      · simp [hlen, mt hless hlen]

/-- Taking away all elements that fail a test leaves those that pass it. -/
theorem diff_filter_not {α : Type} [DecidableEq α] (l : List α) (f : α → Bool) :
    l.diff (l.filter fun x => !f x) = l.filter f := by
  induction l with
  | nil => rfl
  | cons a l ih =>
    cases ha : f a with
    | true =>
      have hnot : a ∉ l.filter fun x => !f x := by simp [ha]
      rw [filter_cons_of_neg (by simp [ha]), filter_cons_of_pos ha, cons_diff_of_not_mem hnot, ih]
    | false =>
      rw [filter_cons_of_pos (by simp [ha]), filter_cons_of_neg (by simp [ha]), diff_cons,
        erase_cons_head, ih]

/-- One node looked at: its entry is cleared, and the others stay. -/
theorem pruneNodeIn_spec (h : Answered g source M ans) {acc : Pruning (OrdMap Int (List Int))}
    (hacc : M acc.memo) (hkeys : acc.kept.keys.Nodup) {e : Int × List Int}
    (he : e ∈ acc.kept.entries) {turns : List Int} (hturns : turns.Perm e.2) :
    M (pruneNodeIn g source acc e turns).memo ∧
      (pruneNodeIn g source acc e turns).kept.entries =
        acc.kept.entries.filterMap (fun x => if x = e then clearEntry ans e else some x) ∧
      (pruneNodeIn g source acc e turns).again = (acc.again || looksAgain ans e) := by
  obtain ⟨hmemo, hkept, hagain⟩ := foldl_prunePred_spec h turns ⟨e.2, false, acc.memo⟩ hacc
  have hleft : (turns.foldl (prunePred g source) ⟨e.2, false, acc.memo⟩).kept = e.2.filter ans := by
    rw [hkept, (hturns.filter _).diff_left, diff_filter_not]
  refine ⟨hmemo, ?_, ?_⟩
  · simp only [pruneNodeIn, hleft, clearEntry]
    split
    · exact entries_erase hkeys he
    · exact entries_insert hkeys he _
  · simp only [pruneNodeIn, hagain, looksAgain, Bool.false_or, hturns.any_eq]

theorem Clears.spec {order : List (Int × List Int)} {acc acc' : Pruning (OrdMap Int (List Int))}
    (h : Answered g source M ans) (hclears : Clears g source order acc acc') (hacc : M acc.memo)
    (hkeys : acc.kept.keys.Nodup) (hsub : ∀ e ∈ order, e ∈ acc.kept.entries)
    (horder : (order.map Prod.fst).Nodup) :
    M acc'.memo ∧
      acc'.kept.entries =
        acc.kept.entries.filterMap (fun x => if x ∈ order then clearEntry ans x else some x) ∧
      acc'.again = (acc.again || order.any (looksAgain ans)) := by
  induction hclears with
  | nil acc => exact ⟨hacc, by simp, by simp⟩
  | @cons e rest acc acc' turns hturns _ ih =>
    obtain ⟨hmemo, hentries, hagain⟩ := pruneNodeIn_spec h hacc hkeys (hsub e (.head _)) hturns
    obtain ⟨hfirst, hrest⟩ := nodup_cons.mp horder
    -- No other node to look at has the key of the first.
    have hother : ∀ x ∈ rest, x.1 ≠ e.1 := fun x hx heq => hfirst (heq ▸ mem_map_of_mem hx)
    have hkeys' : (pruneNodeIn g source acc e turns).kept.keys.Nodup := by
      unfold pruneNodeIn
      dsimp only
      split
      · exact nodup_keys_erase hkeys _
      · exact nodup_keys_insert hkeys _ _
    have hsub' : ∀ x ∈ rest, x ∈ (pruneNodeIn g source acc e turns).kept.entries := by
      intro x hx
      rw [hentries]
      refine mem_filterMap.mpr ⟨x, hsub x (mem_cons_of_mem e hx), if_neg ?_⟩
      exact fun heq => hother x hx (heq ▸ rfl)
    obtain ⟨hmemo', hentries', hagain'⟩ := ih hmemo hkeys' hsub' hrest
    refine ⟨hmemo', ?_, by rw [hagain', hagain, any_cons, Bool.or_assoc]⟩
    rw [hentries', hentries, filterMap_filterMap]
    refine filterMap_congr fun x _ => ?_
    by_cases hx : x = e
    · subst hx
      rw [if_pos rfl, if_pos (.head _)]
      cases hclear : clearEntry ans x with
      | none => rfl
      | some y =>
        have hy : y.1 = x.1 := by rw [clearEntry_eq_some hclear]
        rw [Option.bind_some, if_neg fun hin => hother y hin hy]
    · rw [if_neg hx, Option.bind_some]
      simp only [mem_cons, hx, false_or]

/-- In whatever order it is done, a clearing clears every entry, and asks for another look if one of
them does. -/
theorem Prunes.spec (hprunes : Prunes g source memo waiting r) (h : Answered g source M ans)
    (hmemo : M memo) (hkeys : waiting.keys.Nodup) :
    M r.memo ∧ r.kept = ⟨waiting.entries.filterMap (clearEntry ans)⟩ ∧
      r.again = waiting.entries.any (looksAgain ans) := by
  obtain ⟨order, hperm, hclears⟩ := hprunes
  obtain ⟨hmemo', hentries, hagain⟩ := hclears.spec h hmemo hkeys (fun e he => hperm.mem_iff.mp he)
    ((hperm.map Prod.fst).nodup_iff.mpr hkeys)
  refine ⟨hmemo', ?_, by rw [hagain, Bool.false_or, hperm.any_eq]⟩
  have hall : r.kept.entries = waiting.entries.filterMap (clearEntry ans) := by
    rw [hentries]
    exact filterMap_congr fun x hx => if_pos (hperm.mem_iff.mpr hx)
  exact congrArg OrdMap.mk hall

/-- A clearing leaves some of the nodes that wait. -/
theorem Prunes.keys_sublist (hprunes : Prunes g source memo waiting r)
    (hkeys : waiting.keys.Nodup) : r.kept.keys.Sublist waiting.keys := by
  have hsub : ∀ l : List (Int × List Int),
      ((l.filterMap (clearEntry (answer g source memo))).map Prod.fst).Sublist
      (l.map Prod.fst) := by
    intro l
    induction l with
    | nil => exact .slnil
    | cons e l ih =>
      rw [filterMap_cons]
      split
      · exact ih.cons e.1
      · rename_i e' he'
        rw [map_cons, map_cons, clearEntry_eq_some he']
        exact ih.cons_cons e.1
  rw [(hprunes.spec (answered_as g source memo) (fun _ => rfl) hkeys).2.1]
  exact hsub waiting.entries

theorem Search.Fits.clear (h : s.Fits g) (hprunes : Prunes g source memo s.waiting r) :
    Search.Fits g { s with waiting := r.kept } := by
  have hsub := hprunes.keys_sublist h.keys
  exact ⟨{ h.walk with waiting := fun a ha => h.walk.waiting a (hsub.subset ha) },
    h.keys.sublist hsub⟩

/-- All that is waited for can be reached. -/
def Settled (ans : Int → Bool) (waiting : OrdMap Int (List Int)) : Prop :=
  ∀ k l, waiting.get? k = some l → ∀ p ∈ l, ans p = true

/-- After a clearing all that is waited for can be reached, and a second one has nothing to look at
again. -/
theorem prune_settles (g : Graph) (source : Int) (memo : PathMemo) (hn : waiting.keys.Nodup) :
    Settled (answer g source (prune g source memo waiting).memo)
      (prune g source memo waiting).kept ∧
      (Settled (answer g source memo) waiting → (prune g source memo waiting).again = false) := by
  obtain ⟨hmemo, hkept, hagain⟩ :=
    (prunes_prune g source memo waiting).spec (answered_as g source memo) (fun _ => rfl) hn
  refine ⟨fun k l hl p hp => ?_, fun hsettled => ?_⟩
  · rw [hkept] at hl
    obtain ⟨e, -, he⟩ := mem_filterMap.mp (mem_entries_of_get? hl)
    obtain ⟨-, rfl⟩ := Prod.mk.inj (clearEntry_eq_some he)
    rw [hmemo p]
    exact (mem_filter.mp hp).2
  · rw [hagain, any_eq_false]
    intro e he hlooks
    obtain ⟨p, hp, hstray⟩ := any_eq_true.mp (Bool.and_eq_true_iff.mp hlooks).2
    rw [hsettled e.1 e.2 (OrdMap.get?_of_mem_entries hn he) p hp] at hstray
    cases hstray

/-! ## Rounds -/

/-- One clearing is enough, so the search settles in at most two turns. -/
theorem settle_eq_ok (source : Int) : ∀ (fuel : Nat) (memo : PathMemo) (s : Search),
    s.Fits g → s.stack = [] →
    (2 ≤ fuel ∨ 1 ≤ fuel ∧ Settled (answer g source memo) s.waiting) →
    ∃ verdict memo', settle g source fuel memo s = .ok (verdict, memo') ∧ ∀ s', verdict = .goOn s' →
      Goes g s s' := by
  intro fuel
  induction fuel with
  | zero => intro memo s _ _ h; omega
  | succ fuel ih =>
    intro memo s hs hstack hfuel
    have hgoes := hs.release hstack
    rw [settle]
    dsimp only
    split
    · rename_i hwait
      simp only [Bool.and_eq_true, List.isEmpty_iff] at hwait
      obtain ⟨hsettled, hagain⟩ := prune_settles g source memo hgoes.fits.keys
      have hpruned := hgoes.fits.clear (prunes_prune g source memo (release s).waiting)
      split
      · exact ⟨_, _, rfl, fun s' h => by cases h⟩
      · by_cases ha : (prune g source memo (release s).waiting).again = true
        · -- It was not settled before, so there is a turn left, and it is now.
          have hleft : 1 ≤ fuel := by
            rcases hfuel with hfuel | ⟨-, hfuel⟩
            · omega
            · have := hagain fun k l hl => hfuel k l (get?_release hl)
              rw [this] at ha
              cases ha
          obtain ⟨verdict, memo', heq, hv⟩ :=
            ih (prune g source memo (release s).waiting).memo _ hpruned hwait.1
            (.inr ⟨hleft, hsettled⟩)
          refine ⟨verdict, memo', by rw [if_pos ha]; exact heq, fun s' hs' => ?_⟩
          obtain ⟨h₁, h₂, h₃⟩ := hv s' hs'
          exact ⟨h₁, le_trans hgoes.length h₂, fun hne => lt_of_le_of_lt hgoes.length (h₃ hne)⟩
        · refine ⟨_, _, by rw [if_neg ha], fun s' hs' => ?_⟩
          obtain rfl := Verdict.goOn.inj hs'
          exact ⟨hpruned, hgoes.length, hgoes.more⟩
    · refine ⟨_, _, rfl, fun s' hs' => ?_⟩
      obtain rfl := Verdict.goOn.inj hs'
      exact hgoes

theorem rounds_meets (hg : g.WellFormed) (nest : LoopNest) (scope : Scope) (source : Int) :
    ∀ (fuel : Nat) (memo : PathMemo) (s : Search), s.Fits g → g.nodes.size < fuel + s.done.length →
      Meets (fun _ => True) (ArrivesUnawaited g nest scope)
        (rounds g nest scope source fuel memo s) := by
  intro fuel
  induction fuel with
  | zero =>
    intro memo s hs hfuel
    have : s.done.length ≤ g.nodes.size := hs.walk.done.length_le_size hg
    omega
  | succ fuel ih =>
    intro memo s hs hfuel
    rw [rounds]
    refine Meets.bind (drain_meets hg nest scope _ s hs
      (Nat.lt_succ_of_le (Nat.add_le_add_left (g.edgesLeft_le s.visited) _))) fun s₁ h₁ => ?_
    obtain ⟨hs₁, hstack, hdone⟩ := h₁
    split
    · trivial
    · trivial
    · obtain ⟨verdict, memo', heq, hv⟩ := settle_eq_ok source (g.nodes.size + 2) memo s₁ hs₁ hstack
        (.inl (by omega))
      rw [heq]
      cases verdict with
      | found addr => trivial
      | goOn s₂ =>
        obtain ⟨hs₂, -, hmore⟩ := hv s₂ rfl
        simp only [bind, Except.bind]
        split
        · trivial
        · rename_i hne
          have hlt := hmore (by simpa using hne)
          rw [hdone] at hlt
          exact ih memo' s₂ hs₂ (by omega)

end JoinPoint

open JoinPoint in
/-- The search for the node at which the ways of a jump meet gives an answer, unless it comes first
by an edge that is not waited for to a node that waits. -/
theorem Graph.joinPoint_meets {g : Graph} (hg : g.WellFormed) (nest : LoopNest) (scope : Scope)
    (memo : PathMemo) (source : Int) :
    Meets (fun _ => True) (ArrivesUnawaited g nest scope) (g.joinPoint nest scope memo source) := by
  unfold joinPoint
  refine Meets.bind (rounds_meets hg nest scope source (g.nodes.size + 2) memo _
    (Search.start_fits g source) ?_) fun _ _ => trivial
  show g.nodes.size < g.nodes.size + 2 + 0
  omega

end Decompiler
