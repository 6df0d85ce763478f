import Decompiler.Proofs.JoinSteps
import Decompiler.Proofs.SearchEnds
/-!
# Every run of the search for a join comes to an end

On any graph, with any loops and in whatever order it goes through its sets, the search for the node
at which two ways meet makes finitely many steps (`start_ends`). A round that lets nodes go on ends
their waiting for good. Between two rounds every edge is followed once, and nothing is taken away
twice from what is waited for. All runs come to the same end, which is the answer of
`Graph.joinPoint` (`Graph.gives_of_stuck`).
-/

namespace Decompiler

open List

/-- The nodes of the loop in force that lie in no loop inside it. -/
def Scope.ownNodes (nest : LoopNest) (scope : Scope) : List Int :=
  match scope.loop with
  | none => nest.outside
  | some k => nest.tables.own.getD k []

namespace JoinPoint

open Exploration (places)

variable {g : Graph} {nest : LoopNest} {scope : Scope} {source : Int} {s s' : Search}

/-! ## What the steps keep -/

/-- A state as it comes about. While nodes are let go no edge is left to follow. -/
def Config.Fits (g : Graph) : Config → Prop
  | .walking memo s => g.succs.Truthful memo ∧ s.Fits g
  | .settling memo s => g.succs.Truthful memo ∧ s.Fits g ∧ s.stack = []
  | .ended _ memo => g.succs.Truthful memo
  | .failed _ => True

variable {memo : PathMemo} {c c' : Config} {r : Pruning (OrdMap Int (List Int))}

theorem Config.start_fits (h : g.succs.Truthful memo) (source : Int) :
    (Config.start g memo source).Fits g := ⟨h, Search.start_fits g source⟩

/-- Where no node goes on, letting nodes go changes nothing. -/
theorem release_eq_self (h : (release s).stack = []) : release s = s := by
  have hfold : ∀ (l : List (Int × List Int)) (s : Search), (l.foldl letGo s).stack = [] →
      l.foldl letGo s = s ∧ s.stack = [] := by
    intro l
    induction l with
    | nil => exact fun s h => ⟨rfl, h⟩
    | cons e l ih =>
      intro s h
      obtain ⟨heq, hstack⟩ := ih _ h
      have hsame : letGo s e = s := by
        unfold letGo at hstack ⊢
        split
        · rename_i hempty
          rw [if_pos hempty] at hstack
          cases hstack
        · rfl
      rw [hsame] at heq hstack
      exact ⟨(congrArg (l.foldl letGo) hsame).trans heq, hstack⟩
  exact (hfold s.waiting.entries s h).1

theorem Config.Fits.step (h : c.Fits g) (hstep : Step g nest scope source c c') : c'.Fits g := by
  cases hstep with
  | @edge memo s e rest hstack =>
    cases htake : takeEdge g nest scope { s with stack := rest } e with
    | error fault => exact trivial
    | ok s' => exact ⟨h.1, (h.2.takeEdge hstack htake).1⟩
  | @rest memo s hstack =>
    unfold Config.rested
    split
    · exact h.1
    · exact h.1
    · exact ⟨h.1, h.2, hstack⟩
  | @resume memo s _ =>
    unfold Config.resumed
    split
    · exact h.1
    · exact ⟨h.1, (h.2.1.release h.2.2).fits⟩
  | @clear memo s r hblocked hprunes =>
    have hfits := (h.2.1.release h.2.2).fits
    have hmemo := (hprunes.spec (answered_truthfully g source) h.1 hfits.keys).1
    unfold Config.cleared
    split
    · exact hmemo
    · split
      · exact ⟨hmemo, hfits.clear hprunes, hblocked.1⟩
      · exact hmemo

theorem Config.Fits.reaches (h : c.Fits g) (hreach : Reaches g nest scope source c c') :
    c'.Fits g := by
  induction hreach with
  | refl => exact h
  | tail _ hstep ih => exact ih.step hstep

/-! ## Where the search comes -/

/-- All that a search has before it lies in a set. -/
def Search.Inside (R : Int → Prop) (s : Search) : Prop :=
  (∀ e ∈ s.stack, R e.2) ∧ s.waiting.keys.Nodup ∧ ∀ k ∈ s.waiting.keys, R k

theorem Search.Inside.release {R : Int → Prop} (h : s.Inside R) :
    (JoinPoint.release s).Inside R := by
  obtain ⟨hstack, hkeys, hwaiting⟩ := h
  refine ⟨fun e he => ?_, (release_frees s).keys_nodup hkeys, fun k hk => ?_⟩
  · rcases ((release_frees s).stack e).mp he with he | ⟨-, he⟩
    · exact hstack e he
    · exact hwaiting e.2 (mem_map_of_mem he)
  · obtain ⟨l, hl⟩ := OrdMap.mem_keys.mp hk
    exact hwaiting k (OrdMap.mem_keys_of_get? (get?_release hl))

/-- All that a search has before it lies in a set, and so does its answer. -/
def Config.Inside (R : Int → Prop) : Config → Prop
  | .walking _ s | .settling _ s => s.Inside R
  | .ended found _ => ∀ a, found = some a → R a
  | .failed _ => True

/-- A step does not leave a set that no edge leaves. -/
theorem Config.Inside.step {R : Int → Prop} (hR : ∀ a b, R a → g.Edge a b → R b) (h : c.Inside R)
    (hstep : Step g nest scope source c c') : c'.Inside R := by
  cases hstep with
  | @edge memo s e rest hstack =>
    obtain ⟨hedges, hkeys, hwaiting⟩ := h
    obtain ⟨haddr, hrest⟩ := forall_mem_cons.mp (hstack ▸ hedges)
    cases htake : takeEdge g nest scope { s with stack := rest } e with
    | error fault => exact trivial
    | ok s' =>
      rcases takeEdge_cases htake with rfl | ⟨-, missing, rfl⟩ | ⟨-, rfl⟩
      · exact ⟨hrest, hkeys, hwaiting⟩
      · refine ⟨hrest, OrdMap.nodup_keys_insert hkeys _ _, fun k hk => ?_⟩
        rcases OrdMap.mem_keys_insert.mp hk with rfl | hk
        · exact haddr
        · exact hwaiting k hk
      · refine ⟨forall_mem_append.mpr ⟨fun e' he' => ?_, hrest⟩, hkeys, hwaiting⟩
        obtain ⟨n, hn, rfl⟩ := mem_map.mp (mem_reverse.mp he')
        exact hR e.2 n haddr hn
  | @rest memo s hstack =>
    rcases Config.rested_cases memo s with ⟨-, heq⟩ | ⟨addr, hone, heq⟩ | ⟨-, -, heq⟩
    · exact heq ▸ fun a ha => by cases ha
    · exact heq ▸ fun a ha => Option.some.inj ha ▸ h.2.2 addr (hone ▸ .head _)
    · exact heq ▸ h
  | @resume memo s _ =>
    unfold Config.resumed
    split
    · exact fun a ha => by cases ha
    · exact h.release
  | @clear memo s r hblocked hprunes =>
    obtain ⟨hedges, hkeys, hwaiting⟩ := h.release
    have hsub := hprunes.keys_sublist hkeys
    rcases Config.cleared_cases (release s) r with ⟨addr, hone, heq⟩ | ⟨-, heq⟩
    · exact heq ▸ fun a ha => Option.some.inj ha ▸ hwaiting addr (hsub.subset (hone ▸ .head _))
    · rw [heq]
      split
      · exact ⟨hedges, hkeys.sublist hsub, fun k hk => hwaiting k (hsub.subset hk)⟩
      · exact fun a ha => by cases ha

/-! ## Every run ends -/

/-- What is waited for and cannot be reached. -/
def strays (g : Graph) (source : Int) (waiting : OrdMap Int (List Int)) : List Int :=
  waiting.values.flatten.filter fun p => !g.succs.reaches source p

section

variable {waiting : OrdMap Int (List Int)} (hprunes : Prunes g source memo waiting r)
  (h : g.succs.Truthful memo) (hkeys : waiting.keys.Nodup)
include hprunes h hkeys

/-- A clearing takes away all that cannot be reached. -/
theorem Prunes.strays_eq_nil : strays g source r.kept = [] := by
  rw [(hprunes.spec (answered_truthfully g source) h hkeys).2.1]
  refine filter_eq_nil_iff.mpr fun p hp => ?_
  obtain ⟨l, hl, hp⟩ := mem_flatten.mp hp
  obtain ⟨e', he', rfl⟩ := mem_map.mp hl
  obtain ⟨e, -, he⟩ := mem_filterMap.mp he'
  rw [clearEntry_eq_some he] at hp
  rw [(mem_filter.mp hp).2]
  exact Bool.false_ne_true

/-- Another look is asked for only if something was taken away. -/
theorem Prunes.strays_ne_nil (hagain : r.again = true) : strays g source waiting ≠ [] := by
  rw [(hprunes.spec (answered_truthfully g source) h hkeys).2.2] at hagain
  obtain ⟨e, he, hlooks⟩ := any_eq_true.mp hagain
  obtain ⟨p, hp, hstray⟩ := any_eq_true.mp (Bool.and_eq_true_iff.mp hlooks).2
  exact ne_nil_of_mem (mem_filter.mpr ⟨mem_flatten.mpr ⟨e.2, mem_map_of_mem he, hp⟩, hstray⟩)

end

/-- How far a search is from its end: the nodes that are not done; whether it walks; the edges left,
or what is waited for in vain. -/
def Config.rank (g : Graph) (source : Int) : Config → ℕ ×ₗ ℕ ×ₗ ℕ
  | .walking _ s => toLex ((places g).length - s.done.length, toLex (1, s.toWalk.load g))
  | .settling _ s =>
    toLex ((places g).length - s.done.length, toLex (0, (strays g source s.waiting).length))
  | .ended _ _ | .failed _ => toLex (0, toLex (0, 0))

/-- Every step ends the search or lowers its rank. -/
theorem Step.lowers (h : c.Fits g) (hstep : Step g nest scope source c c') :
    c'.Ended ∨ c'.rank g source < c.rank g source := by
  cases hstep with
  | @edge memo s e rest hstack =>
    cases htake : takeEdge g nest scope { s with stack := rest } e with
    | error fault => exact .inl trivial
    | ok s' =>
      obtain ⟨-, hdone, hload⟩ := h.2.takeEdge hstack htake
      refine .inr ?_
      simp only [Config.taken, Config.rank, hdone, Prod.Lex.toLex_lt_toLex]
      exact .inr ⟨trivial, .inr ⟨trivial, hload⟩⟩
  | @rest memo s hstack =>
    unfold Config.rested
    split
    · exact .inl trivial
    · exact .inl trivial
    · refine .inr ?_
      simp only [Config.rank, Prod.Lex.toLex_lt_toLex]
      exact .inr ⟨trivial, .inl Nat.zero_lt_one⟩
  | @resume memo s _ =>
    unfold Config.resumed
    split
    · exact .inl trivial
    · rename_i hne
      -- A node was let go, so more nodes are done than before.
      obtain ⟨hfits, -, hmore⟩ := h.2.1.release h.2.2
      have hlt := hmore (by simpa using hne)
      have hroom : (release s).done.length ≤ _ := hfits.walk.done.length_le
      refine .inr ?_
      simp only [Config.rank, Prod.Lex.toLex_lt_toLex]
      exact .inl (by omega)
  | @clear memo s r hblocked hprunes =>
    unfold Config.cleared
    split
    · exact .inl trivial
    · split
      · rename_i hagain
        -- Something was waited for in vain; after the clearing nothing is.
        rw [release_eq_self hblocked.1] at hprunes ⊢
        have hnone := hprunes.strays_eq_nil h.1 h.2.1.keys
        have hsome := hprunes.strays_ne_nil h.1 h.2.1.keys hagain
        refine .inr ?_
        simp only [Config.rank, Prod.Lex.toLex_lt_toLex, hnone]
        exact .inr ⟨trivial, .inr ⟨trivial, length_pos_iff.mpr hsome⟩⟩
      · exact .inl trivial

theorem ends_of_fits : ∀ (rank : ℕ ×ₗ ℕ ×ₗ ℕ) (c : Config), c.rank g source = rank → c.Fits g →
    Acc (fun c' c => Step g nest scope source c c') c := by
  intro rank
  induction rank using WellFoundedLT.induction with
  | _ rank ih =>
    intro c hrank h
    refine ⟨c, fun c' hstep => ?_⟩
    rcases hstep.lowers h with hended | hlt
    · exact ⟨c', fun c'' hstep' => absurd hended (exists_step_iff.mp ⟨c'', hstep'⟩)⟩
    · exact ih _ (hrank ▸ hlt) c' rfl (h.step hstep)

/-- No search goes on for ever. -/
theorem start_ends (h : g.succs.Truthful memo) (source : Int) :
    ¬ ∃ run : Nat → Config, run 0 = Config.start g memo source ∧
      ∀ n, Step g nest scope source (run n) (run (n + 1)) :=
  fun hrun => not_acc_iff_exists_descending_chain.mpr hrun
    (ends_of_fits _ _ rfl (Config.start_fits h source))

/-! ## All runs come to the same end -/

theorem Config.bare_taken (memo memo' : PathMemo) (r : Except Fault Search) :
    (Config.taken memo r).bare = (Config.taken memo' r).bare := by
  cases r with
  | ok s | error e => rfl

theorem Config.bare_rested (memo memo' : PathMemo) (s : Search) :
    (Config.rested memo s).bare = (Config.rested memo' s).bare := by
  unfold Config.rested
  split
  · rfl
  · rfl
  · rfl

theorem Config.bare_resumed (memo memo' : PathMemo) (s : Search) :
    (Config.resumed memo s).bare = (Config.resumed memo' s).bare := by
  unfold Config.resumed
  split
  · rfl
  · rfl

theorem Config.bare_cleared (s : Search) {r' : Pruning (OrdMap Int (List Int))}
    (hkept : r.kept = r'.kept) (hagain : r.again = r'.again) :
    (Config.cleared s r).bare = (Config.cleared s r').bare := by
  unfold Config.cleared
  rw [hkept, hagain]
  split
  · rfl
  · split
    · rfl
    · rfl

/-- Two searches that differ at most in the answers about paths that they keep do so after a step,
whatever the orders in which they go through their sets. -/
theorem Step.bare_eq {d d' : Config} (hc : c.Fits g) (hc' : c'.Fits g) (hsame : c.bare = c'.bare)
    (h : Step g nest scope source c d) (h' : Step g nest scope source c' d') :
    d.bare = d'.bare := by
  cases h with
  | @edge memo s e rest hstack =>
    cases h' with
    | @edge memo' s' e' rest' hstack' =>
      obtain ⟨-, rfl⟩ := Config.walking.inj hsame
      obtain ⟨rfl, rfl⟩ := cons.inj (hstack.symm.trans hstack')
      exact Config.bare_taken memo memo' _
    | @rest memo' s' hstack' =>
      obtain ⟨-, rfl⟩ := Config.walking.inj hsame
      exact absurd (hstack.symm.trans hstack') (cons_ne_nil _ _)
    | resume | clear => cases hsame
  | @rest memo s hstack =>
    cases h' with
    | @edge memo' s' e' rest' hstack' =>
      obtain ⟨-, rfl⟩ := Config.walking.inj hsame
      exact absurd (hstack'.symm.trans hstack) (cons_ne_nil _ _)
    | @rest memo' s' _ =>
      obtain ⟨-, rfl⟩ := Config.walking.inj hsame
      exact Config.bare_rested memo memo' s
    | resume | clear => cases hsame
  | @resume memo s hgo =>
    cases h' with
    | edge | rest => cases hsame
    | @resume memo' s' _ =>
      obtain ⟨-, rfl⟩ := Config.settling.inj hsame
      exact Config.bare_resumed memo memo' _
    | @clear memo' s' r' hblocked _ =>
      obtain ⟨-, rfl⟩ := Config.settling.inj hsame
      exact absurd hblocked hgo
  | @clear memo s r hblocked hprunes =>
    cases h' with
    | edge | rest => cases hsame
    | @resume memo' s' hgo =>
      obtain ⟨-, rfl⟩ := Config.settling.inj hsame
      exact absurd hblocked hgo
    | @clear memo' s' r' _ hprunes' =>
      obtain ⟨-, rfl⟩ := Config.settling.inj hsame
      -- What a clearing gives is said without the order it takes, so both give the same.
      have hkeys := (hc.2.1.release hc.2.2).fits.keys
      obtain ⟨-, hkept, hagain⟩ := hprunes.spec (answered_truthfully g source) hc.1 hkeys
      obtain ⟨-, hkept', hagain'⟩ := hprunes'.spec (answered_truthfully g source) hc'.1 hkeys
      exact Config.bare_cleared _ (hkept.trans hkept'.symm) (hagain.trans hagain'.symm)

theorem Config.ended_bare : c.bare.Ended ↔ c.Ended := by
  cases c with
  | walking | settling | ended | failed => exact Iff.rfl

/-- Two searches that differ at most in the answers about paths that they keep come to the same
end. -/
theorem ended_alike {d : Config} (hreach : Reaches g nest scope source c d) (hd : d.Ended) :
    ∀ {c' d' : Config}, c.Fits g → c'.Fits g → c.bare = c'.bare →
      Reaches g nest scope source c' d' → d'.Ended → d.bare = d'.bare := by
  induction hreach using Relation.ReflTransGen.head_induction_on with
  | refl =>
    intro c' d' _ _ hsame hreach' _
    have hc' : c'.Ended := Config.ended_bare.mp (hsame ▸ Config.ended_bare.mpr hd)
    rcases hreach'.cases_head with rfl | ⟨c'', hstep, -⟩
    · exact hsame
    · exact absurd hc' (exists_step_iff.mp ⟨c'', hstep⟩)
  | @head c c₁ hstep _ ih =>
    intro c' d' hc hc' hsame hreach' hd'
    have hon : ¬ c'.Ended := fun hended =>
      exists_step_iff.mp ⟨c₁, hstep⟩ (Config.ended_bare.mp (hsame ▸ Config.ended_bare.mpr hended))
    rcases hreach'.cases_head with rfl | ⟨c₂, hstep', hrest⟩
    · exact absurd hd' hon
    · exact ih (hc.step hstep) (hc'.step hstep') (hstep.bare_eq hc hc' hsame hstep') hrest hd'

/-- What a search that has ended gives: the node found, if the scope allows it, or the cause of the
failure. -/
def Config.Gives (nest : LoopNest) (scope : Scope) :
    Config → Except Fault (Option Int × PathMemo) → Prop
  | .ended found _, r => ∃ memo, r = .ok (found.filter (· ∈ scope.ownNodes nest), memo)
  | .failed e, r => r = .error e
  | .walking _ _, _ | .settling _ _, _ => False

end JoinPoint

open JoinPoint

theorem Graph.joinPoint_eq (g : Graph) (nest : LoopNest) (scope : Scope) (memo : PathMemo)
    (source : Int) :
    g.joinPoint nest scope memo source =
      (rounds g nest scope source (g.nodes.size + 2) memo (.start g source)).map
        fun r => (r.1.filter (· ∈ scope.ownNodes nest), r.2) := by
  unfold joinPoint Search.start
  dsimp only
  cases rounds g nest scope source (g.nodes.size + 2) memo
    ⟨((g.next source).map fun n => (some source, n)).reverse, [], [], ∅⟩ with
  | ok r | error e => rfl

variable {g : Graph} {nest : LoopNest} {scope : Scope} {memo memo' : PathMemo} {source : Int}

/-- The answer of the search is that of a run. -/
theorem Graph.joinPoint_runs (hg : g.WellFormed) (nest : LoopNest) (scope : Scope) (memo : PathMemo)
    (source : Int) :
    Meets
      (fun r => ∃ found, JoinPoint.Reaches g nest scope source (.start g memo source)
        (.ended found r.2) ∧ r.1 = found.filter (· ∈ scope.ownNodes nest))
      (fun e => JoinPoint.Reaches g nest scope source (.start g memo source) (.failed e))
      (g.joinPoint nest scope memo source) := by
  have hmeets := Graph.joinPoint_meets hg nest scope memo source
  have hruns := rounds_runs g nest scope source (g.nodes.size + 2) memo (.start g source)
  rw [Graph.joinPoint_eq] at hmeets ⊢
  cases hrounds : rounds g nest scope source (g.nodes.size + 2) memo (.start g source) with
  | ok r =>
    rw [hrounds] at hruns
    exact ⟨r.1, hruns, rfl⟩
  | error e =>
    rw [hrounds] at hruns hmeets
    obtain ⟨p, addr, rfl, -⟩ := hmeets
    exact hruns.resolve_left Fault.noConfusion

/-- The search leaves truthful answers about paths. -/
theorem Graph.joinPoint_truthful (hg : g.WellFormed) (hmemo : g.succs.Truthful memo)
    {found : Option Int} (h : g.joinPoint nest scope memo source = .ok (found, memo')) :
    g.succs.Truthful memo' := by
  have hruns := Graph.joinPoint_runs hg nest scope memo source
  rw [h] at hruns
  obtain ⟨_, hreach, -⟩ := hruns
  exact Config.Fits.reaches (Config.start_fits hmemo source) hreach

/-- The node at which the ways of a jump meet is reached from the jump. -/
theorem Graph.joinPoint_reached (hg : g.WellFormed) {a : Int}
    (h : g.joinPoint nest scope memo source = .ok (some a, memo')) :
    Relation.TransGen g.Edge source a := by
  have hruns := Graph.joinPoint_runs hg nest scope memo source
  rw [h] at hruns
  obtain ⟨found, hreach, hfound⟩ := hruns
  have hinside : (Config.start g memo source).Inside (Relation.TransGen g.Edge source) := by
    refine ⟨fun e he => ?_, nodup_nil, forall_mem_nil _⟩
    obtain ⟨n, hn, rfl⟩ := mem_map.mp (mem_reverse.mp he)
    exact .single hn
  have hend : (Config.ended found memo').Inside (Relation.TransGen g.Edge source) := by
    refine Relation.ReflTransGen.rec hinside (fun _ hstep ih => ?_) hreach
    exact ih.step (fun x y hx hxy => hx.tail hxy) hstep
  exact hend a (Option.filter_eq_some_iff.mp hfound.symm).1

/-- Where a run of the search stops, it gives the answer of `Graph.joinPoint`, whatever answers
about paths are kept. -/
theorem Graph.gives_of_stuck (hg : g.WellFormed) (hmemo : g.succs.Truthful memo)
    (hmemo' : g.succs.Truthful memo') {c : Config}
    (hreach : JoinPoint.Reaches g nest scope source (.start g memo source) c)
    (hstuck : ¬ ∃ c', JoinPoint.Step g nest scope source c c') :
    c.Gives nest scope (g.joinPoint nest scope memo' source) := by
  have hended : c.Ended := by
    by_contra hon
    exact hstuck (exists_step_iff.mpr hon)
  have hruns := Graph.joinPoint_runs hg nest scope memo' source
  have hsame : ∀ {c' : Config}, JoinPoint.Reaches g nest scope source (.start g memo' source) c' →
      c'.Ended → c.bare = c'.bare :=
    ended_alike hreach hended (Config.start_fits hmemo source) (Config.start_fits hmemo' source) rfl
  cases hjoin : g.joinPoint nest scope memo' source with
  | ok r =>
    rw [hjoin] at hruns
    obtain ⟨found, hreach', hr⟩ := hruns
    have hbare := hsame hreach' trivial
    cases c with
    | walking | settling => cases hended
    | ended found' memo' =>
      obtain ⟨rfl, -⟩ := Config.ended.inj hbare
      exact ⟨r.2, congrArg Except.ok (Prod.ext hr rfl)⟩
    | failed e => cases hbare
  | error e =>
    rw [hjoin] at hruns
    have hbare := hsame hruns trivial
    cases c with
    | walking | settling => cases hended
    | ended found' memo' => cases hbare
    | failed e' =>
      obtain rfl := Config.failed.inj hbare
      rfl

end Decompiler
