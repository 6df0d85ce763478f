import Decompiler.Proofs.Blocks
import Decompiler.Proofs.Exploration
import Decompiler.Proofs.OneByteCode
/-!
# Every run of the search for loops comes to an end

On any graph, with any lists of predecessors, and in whatever order the search goes through its
sets, it makes finitely many steps and then has returned or failed (`search_terminates`). Each level
has a rank that its own steps lower: more is visited or done, or a loop is found, or the level goes
on to its next stage, or less is left to do there. Levels inside can only lower it too, by finding
loops. The levels are nested no deeper than there are addresses, since each has its own start among
the loops around, which it did not have before.
-/

namespace Decompiler.Exploration

open List

variable {g : Graph} {f f' : Frame} {fs : List Frame} {waiting : Waiting} {t t' : LoopTables}

/-! ## The rank of a level -/

/-- How late a stage comes before the level has to walk again. -/
def Stage.height : Stage → Nat
  | .walking true => 4
  | .walking false => 3
  | .exploring _ => 2
  | .settling => 1
  | .recording _ => 0

/-- What is left to do in a stage. -/
def Stage.load : Stage → Nat
  | .exploring ready => ready.length
  | .recording left => left.length
  | _ => 0

/-- The rank of a level: what it has not visited or done, then the loops it has not found, then its
stage, then what is left to do there. -/
def Frame.rank (g : Graph) (t : LoopTables) (f : Frame) : ℕ ×ₗ ℕ ×ₗ ℕ ×ₗ ℕ :=
  toLex (2 * (places g).length - f.advance, toLex ((places g).length - (foundFrom t f.entry).length,
    toLex (f.stage.height, f.stage.load + f.stack.length)))

theorem Frame.Fits.advance_le (h : f.Fits g waiting) : f.advance ≤ 2 * (places g).length := by
  have hvisited : f.visited.length ≤ _ := h.walk.visited.length_le
  have hdone : f.done.length ≤ _ := h.walk.done.length_le
  rw [Frame.advance]
  omega

/-- A level that gets on: nothing is taken back, and it has visited or done more, found a loop, come
to a lower stage or done some of what was left. -/
structure Lowers (t : LoopTables) (f : Frame) (t' : LoopTables) (f' : Frame) : Prop where
  entry : f'.entry = f.entry
  around : f'.around = f.around
  own : ∀ k ∈ t.own.keys, k ∈ t'.own.keys
  advance : f.advance ≤ f'.advance
  lower : f.advance < f'.advance ∨ (foundFrom t f.entry).length < (foundFrom t' f.entry).length ∨
    f'.stage.height < f.stage.height ∨
    f'.stage.height = f.stage.height ∧ f'.stage.load + f'.stack.length < f.stage.load +
      f.stack.length

theorem Lowers.rank_lt (h : Lowers t f t' f') (hnodup : t.own.keys.Nodup)
    (hfit : Fits g (f' :: fs) waiting t') : f'.rank g t' < f.rank g t := by
  have hroom := (hfit.frame f' mem_cons_self).advance_le
  have hfound := length_foundFrom_le hfit.own_nodup (fun k hk => (hfit.own k hk).mem_places) f.entry
  have hmono := length_foundFrom_mono hnodup h.own f.entry
  have hadvance := h.advance
  have hlower := h.lower
  rw [Frame.rank, Frame.rank, h.entry, Prod.Lex.toLex_lt_toLex, Prod.Lex.toLex_lt_toLex,
    Prod.Lex.toLex_lt_toLex]
  dsimp only
  omega

/-- A step fails, or the innermost level returns, or it gets on, or it goes down into a loop, which
is one of those that were ready. -/
theorem Step.cases_level {c : Config} (h : Fits g (f :: fs) waiting t)
    (hstep : Step g (.running (f :: fs) waiting t) c) :
    (∃ e, c = .failed e) ∨ c = .running fs waiting t ∨
      (∃ f' waiting' t', c = .running (f' :: fs) waiting' t' ∧ Lowers t f t' f') ∨
      ∃ addr f', c = .running (f.inside g t addr :: f' :: fs) waiting t ∧ addr ∉ f.around ∧
        Lowers t f t f' := by
  have hf := h.frame f (.head _)
  cases hstep with
  | @wait _ _ _ _ moved source addr rest w hstage hstack hwait harrive =>
    obtain ⟨missing, rfl, -⟩ := arrive_spec harrive
    refine .inr (.inr (.inl ⟨_, _, _, rfl, rfl, rfl, fun k hk => hk, le_refl _, ?_⟩))
    refine .inr (.inr (.inr ⟨by rw [hstage]; rfl, ?_⟩))
    rw [hstage, hstack]
    exact Nat.lt_succ_self _
  | strand | misrecord => exact .inl ⟨_, rfl⟩
  | @enter _ _ _ _ moved source addr rest entered w hstage hstack hwait henter =>
    refine .inr (.inr (.inl ⟨_, _, _, rfl, ?_⟩))
    rcases enter_spec henter with ⟨-, rfl, rfl⟩ | hnew
    · refine ⟨rfl, rfl, fun k hk => hk, le_refl _, .inr (.inr (.inr ?_))⟩
      rw [Bool.or_false, hstage, hstack]
      exact ⟨rfl, Nat.lt_succ_self _⟩
    · have hmore : f.advance + 1 = (f.put w (.walking (moved || entered))).advance := by
        simp only [Frame.advance, Frame.put, hnew.visited, hnew.done, Frame.walk, length_cons]
        omega
      exact ⟨rfl, rfl, fun k hk => hk, by omega, .inl (by omega)⟩
  | @pause _ _ _ _ w hstage hstack hrel | @settle _ _ _ _ w left hstage hrel =>
    refine .inr (.inr (.inl ⟨_, _, _, rfl, rfl, rfl, fun k hk => hk, ?_, ?_⟩))
    · exact hf.advance_le_put hrel _
    · exact .inr (.inr (.inl (by rw [hstage]; exact Nat.lt_succ_self _)))
  | @search _ _ _ _ ready found waiting' t' hstage hsearch =>
    have hs := hsearch.searched
    have hown : ∀ k ∈ t.own.keys, k ∈ t'.own.keys :=
      fun k hk => (hs.detects.mem_own k).mpr (.inl hk)
    refine .inr (.inr (.inl ⟨_, _, _, rfl, rfl, rfl, hown, le_refl _, ?_⟩))
    cases ready with
    | nil =>
      -- No loop is ready: the level goes on to let nodes go.
      refine .inr (.inr (.inl ?_))
      rcases hstage with ⟨hstage, -⟩ | hstage
      · rw [hstage]
        exact Nat.succ_lt_succ (Nat.succ_pos 1)
      · rw [hstage]
        exact Nat.lt_succ_self 1
    | cons a rest => exact .inr (.inl (hs.length_foundFrom_lt h.own_nodup (.head _)))
  | @descend _ _ _ _ addr rest hstage =>
    refine .inr (.inr (.inr ⟨addr, _, rfl, (hf.ready _ hstage addr (.head _)).2, rfl, rfl,
      fun k hk => hk, le_refl _, .inr (.inr (.inr ?_))⟩))
    rw [hstage]
    exact ⟨rfl, Nat.add_lt_add_right (Nat.lt_succ_self _) _⟩
  | @resume _ _ _ _ w hstage hrel hne =>
    have hidle := hf.idle (by simp [hstage])
    have hlt : f.advance < (f.put w (.walking false)).advance := by
      have := (hf.walk.releases hrel).2.2 hidle hne
      rw [Frame.advance, Frame.advance, Frame.put, hrel.frees.visited, Frame.walk]
      exact Nat.add_lt_add_left this _
    exact .inr (.inr (.inl ⟨_, _, _, rfl, rfl, rfl, fun k hk => hk, le_of_lt hlt, .inl hlt⟩))
  | @record _ _ _ _ start left t' hstage hrecord =>
    have hown := own_of_recordLoop hrecord
    refine .inr (.inr (.inl ⟨_, _, _, rfl, rfl, rfl, fun k hk => hown ▸ hk, le_refl _,
      .inr (.inr (.inr ?_))⟩))
    rw [hstage]
    exact ⟨rfl, Nat.add_lt_add_right (Nat.lt_succ_self _) _⟩
  | leave => exact .inr (.inl rfl)

/-! ## Every run ends -/

/-- A state from which no run goes on for ever. -/
abbrev Config.Ends (g : Graph) (c : Config) : Prop := Acc (fun c' c => Step g c c') c

theorem Config.failed_ends (e : Fault) : (Config.failed e).Ends g := ⟨_, fun _ h => by cases h⟩

/-- A level that gets on does so whatever levels inside find after it. -/
theorem Lowers.mono {t₁ t₂ : LoopTables} (h : Lowers t f t₁ f') (hnodup : t₁.own.keys.Nodup)
    (hown : ∀ k ∈ t₁.own.keys, k ∈ t₂.own.keys) : Lowers t f t₂ f' :=
  { h with
    own := fun k hk => hown k (h.own k hk)
    lower := h.lower.imp_right (Or.imp_left fun hlt =>
      lt_of_lt_of_le hlt (length_foundFrom_mono hnodup hown f.entry)) }

/-- If the levels around come to an end whatever is found inside, then so do they with one level
more. The induction is on the number of loops that are not yet around, and for one level on its
rank. -/
theorem ends_cons : ∀ (depth : Nat) (f : Frame) (fs : List Frame) (t₀ : LoopTables),
    (places g).length ≤ depth + f.around.length →
    (∀ waiting t, (∀ k ∈ t₀.own.keys, k ∈ t.own.keys) → Fits g fs waiting t →
      (Config.running fs waiting t).Ends g) →
    ∀ waiting t, (∀ k ∈ t₀.own.keys, k ∈ t.own.keys) → Fits g (f :: fs) waiting t →
      (Config.running (f :: fs) waiting t).Ends g := by
  intro depth
  induction depth using Nat.strong_induction_on with
  | _ depth ihdepth =>
    intro f fs t₀ hdepth hfs
    have hrank : ∀ (r : ℕ ×ₗ ℕ ×ₗ ℕ ×ₗ ℕ) (f : Frame) (waiting : Waiting) (t : LoopTables),
        f.rank g t = r →
        (places g).length ≤ depth + f.around.length → (∀ k ∈ t₀.own.keys, k ∈ t.own.keys) →
        Fits g (f :: fs) waiting t → (Config.running (f :: fs) waiting t).Ends g := by
      intro r
      induction r using WellFoundedLT.induction with
      | _ r ihrank =>
        intro f waiting t hr hdepth hgrown hfit
        refine ⟨_, fun c hstep => ?_⟩
        have hfit' : c.Fits g := Config.Fits.step (c := .running (f :: fs) waiting t) hfit hstep
        rcases Step.cases_level hfit hstep with ⟨e, rfl⟩ | rfl | ⟨f', waiting', t', rfl,
          hlow⟩ | ⟨addr, f', rfl, hout, hlow⟩
        · exact Config.failed_ends e
        · exact hfs waiting t hgrown hfit'
        · exact ihrank _ (hr ▸ hlow.rank_lt hfit.own_nodup hfit') f' waiting' t' rfl
            (hlow.around ▸ hdepth) (fun k hk => hlow.own k (hgrown k hk)) hfit'
        · -- The level inside has one loop more around, and the level around has got on by going
          -- down.
          have hlen : (f.inside g t addr).around.length = f.around.length + 1 :=
            length_insert_of_not_mem hout
          have hroom := (hfit'.frame _ (.head _)).around.length_le
          refine ihdepth (depth - 1) (by omega) (f.inside g t addr) (f' :: fs) t (by omega)
            (fun waiting' t' hgrown' hfit'' => ?_) waiting t (fun k hk => hk) hfit'
          exact ihrank _ (hr ▸ (hlow.mono hfit.own_nodup hgrown').rank_lt hfit.own_nodup hfit'') f'
            waiting' t' rfl (hlow.around ▸ hdepth) (fun k hk => hgrown' k (hgrown k hk)) hfit''
    exact fun waiting t => hrank _ f waiting t rfl hdepth

theorem start_ends (g : Graph) : (Config.start g).Ends g := by
  refine ends_cons (places g).length _ [] LoopTables.empty (Nat.le_add_right _ _)
    (fun waiting t _ _ => ?_) ∅ LoopTables.empty (fun k hk => hk) (Config.Fits.start g)
  exact ⟨_, fun c h => by cases h⟩

/-- Where no run goes on for ever there is no infinite one. -/
theorem Config.Ends.not_infinite {c : Config} (h : c.Ends g) :
    ¬ ∃ run : Nat → Config, run 0 = c ∧ ∀ n, Step g (run n) (run (n + 1)) :=
  fun hrun => not_acc_iff_exists_descending_chain.mpr hrun h

/-- The search for the loops of any graph makes finitely many steps, in whatever order it goes
through its sets, and stops only where it has returned or failed. Its levels are nested so that each
adds its own start, which is new, to the loops around. A search for paths on the way has steps
enough, however many more it is given. On a well formed graph the answer of `Graph.loops` is that of
one of these runs. -/
theorem search_terminates (g : Graph) :
    (¬ ∃ run : Nat → Config, run 0 = Config.start g ∧ ∀ n, Step g (run n) (run (n + 1))) ∧
      (∀ c, Reaches g (Config.start g) c → (¬ ∃ c', Step g c c') → c.Ended) ∧
      (∀ frames waiting t, Reaches g (Config.start g) (.running frames waiting t) →
        frames.IsChain Nests ∧ ∀ f ∈ frames, f.around.Nodup) ∧
      (∀ goal barred fuel first addr, g.succs.size + 2 ≤ fuel →
        g.succs.pathsFrom goal barred fuel first addr ⟨[], []⟩ =
          g.succs.pathsFrom goal barred (g.succs.size + 2) first addr ⟨[], []⟩) ∧
      (g.WellFormed → Meets (fun t => ∃ waiting, Reaches g (Config.start g) (.running [] waiting t))
        (fun e => Reaches g (Config.start g) (.failed e)) g.loops) := by
  refine ⟨(start_ends g).not_infinite, fun c _ hstuck => ?_, fun frames waiting t hreach => ?_,
    fun goal barred fuel first addr hfuel => ?_, fun hg => ?_⟩
  · cases c with
    | failed e => exact trivial
    | running frames waiting t =>
      cases frames with
      | nil => exact rfl
      | cons f fs => exact absurd (exists_step f fs waiting t) hstuck
  · have hfit : Fits g frames waiting t := Config.Fits.of_reaches hreach
    exact ⟨hfit.nested, fun f hf => (hfit.frame f hf).around.1⟩
  · have hsize : g.succs.untried [] ≤ g.succs.size := g.succs.untried_le_size []
    exact Edges.pathsFrom_steps fuel _ first addr _ (by dsimp only; omega) (by dsimp only; omega)
  · exact loops_run hg

/-- Three loops around one jump to the entry: a run of the search returns with them, and none goes
on for ever. -/
theorem search_terminates_nested :
    ∃ (p' : Program) (g₀ g : Graph) (t : LoopTables) (waiting : Waiting),
      Graph.discover 0 (OneByte.program [.fork 2, .fork 1, .jump 0]) = .ok (some g₀) p' ∧
        g₀.blocks .x86 = .ok g ∧
      g.loops = .ok t ∧ t.own.keys.length = 3 ∧ Reaches g (Config.start g) (.running [] waiting t) ∧
      ¬ ∃ run : Nat → Config, run 0 = Config.start g ∧ ∀ n, Step g (run n) (run (n + 1)) := by
  have hval : (OneByte.nested? [.fork 2, .fork 1, .jump 0]).map (fun r =>
      r.tables.own.keys.length) = some 3 := by
    decide +kernel
  obtain ⟨r, hr, hlen⟩ := Option.map_eq_some_iff.mp hval
  obtain ⟨p', g₀, hfound, hblocks, hloops, -⟩ := OneByte.exists_of_nested? hr
  obtain ⟨hwf, -, -⟩ := Graph.wellFormed_of_blocks (OneByte.program_keyed _) hfound hblocks
  obtain ⟨hfinite, -, -, -, hrun⟩ := search_terminates r.graph
  have hanswer := hrun hwf
  rw [hloops] at hanswer
  obtain ⟨waiting, hreach⟩ := hanswer
  exact ⟨p', g₀, r.graph, r.tables, waiting, hfound, hblocks, hloops, hlen, hreach, hfinite⟩

end Decompiler.Exploration
