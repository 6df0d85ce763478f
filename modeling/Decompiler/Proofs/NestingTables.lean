import Decompiler.Proofs.SearchEnds
/-!
# What the tables of loops say about each other

What the levels of the search owe and what is recorded together are the loops found, at every step
and in whatever order the search goes through its sets (`Config.Booked.of_reaches`). A search that
has returned owes nothing, so the tables speak of the same loops. The nodes of a loop are then those
that were found for it and for the loops it reaches through the loops inside
(`LoopTables.Sound.mem_all_iff`).
-/

namespace Decompiler

open Relation

namespace LoopTables

variable {g : Graph} {t : LoopTables} {k k' : LoopId}

/-- A loop has another directly inside it. -/
def Holds (t : LoopTables) (k k' : LoopId) : Prop := k' ∈ t.inner.getD k []

/-- The loops inside a loop, and those inside these, were recorded before it. -/
theorem Sound.recorded_before (h : t.Sound g) (hin : TransGen t.Holds k k') :
    t.all.keys.idxOf k' < t.all.keys.idxOf k := by
  induction hin with
  | single hin => exact (h.inner_before _ _ hin).2
  | tail _ hin ih => exact (h.inner_before _ _ hin).2.trans ih

/-- The nodes of a loop are its own and those of all loops that are inside it, at any depth. -/
theorem Sound.mem_all_iff (h : t.Sound g) (hk : k ∈ t.all.keys) (a : Int) :
    a ∈ t.all.getD k [] ↔ ∃ k', ReflTransGen t.Holds k k' ∧ a ∈ t.own.getD k' [] := by
  -- The induction is on the place in the order of recording, which is lower for the loops inside.
  induction hn : t.all.keys.idxOf k using Nat.strong_induction_on generalizing k with
  | _ n ih =>
    have hinside : ∀ m, t.Holds k m →
        (a ∈ t.all.getD m [] ↔ ∃ k', ReflTransGen t.Holds m k' ∧ a ∈ t.own.getD k' []) := by
      intro m hm
      obtain ⟨hmem, hlt⟩ := h.inner_before k m hm
      exact ih _ (hn ▸ hlt) hmem rfl
    rw [h.gathers k hk a]
    constructor
    · rintro (ha | ⟨m, hm, ha⟩)
      · exact ⟨k, .refl, ha⟩
      · obtain ⟨k', hreach, ha⟩ := (hinside m hm).mp ha
        exact ⟨k', .head hm hreach, ha⟩
    · rintro ⟨k', hreach, ha⟩
      rcases hreach.cases_head with rfl | ⟨m, hm, hreach⟩
      · exact .inl ha
      · exact .inr ⟨m, hm, (hinside m hm).mpr ⟨k', hreach, ha⟩⟩

/-- Tables that agree: they speak of the same loops, the loops inside and the loops around are each
other's converse, no loop is inside itself at any depth, and the nodes of a loop are those found for
it and for the loops inside it. -/
structure Consistent (t : LoopTables) : Prop where
  all_keys : t.all.keys.Perm t.own.keys
  inner_keys : t.inner.keys.Perm t.own.keys
  converse : ∀ k k', k' ∈ t.inner.getD k [] ↔ k ∈ t.outer.getD k' []
  acyclic : ∀ k, ¬ TransGen t.Holds k k
  nodes : ∀ k ∈ t.own.keys, ∀ a, a ∈ t.all.getD k [] ↔ ∃ k', ReflTransGen t.Holds k k' ∧
    a ∈ t.own.getD k' []

end LoopTables

namespace Exploration

variable {g : Graph}

/-- Wherever the search for loops returns, in whatever order it went through its sets, its tables
agree; the answer of `Graph.loops` is that of one of these runs. -/
theorem loops_consistent (hg : g.WellFormed) :
    (∀ waiting t, Reaches g (Config.start g) (.running [] waiting t) → t.Consistent) ∧
      ∀ t, g.loops = .ok t → t.Consistent := by
  have hrun : ∀ waiting t, Reaches g (Config.start g) (.running [] waiting t) → t.Consistent := by
    intro waiting t hreach
    obtain ⟨hsound, hkeys⟩ := sound_of_reaches hg hreach
    exact {
      all_keys := hkeys
      inner_keys := hsound.inner_keys ▸ hkeys
      converse := fun k k' => (hsound.converse k k').symm
      acyclic := fun k hin => lt_irrefl _ (hsound.recorded_before hin)
      nodes := fun k hk => hsound.mem_all_iff (hkeys.mem_iff.mpr hk) }
  refine ⟨hrun, fun t hloops => ?_⟩
  have hleads := loops_leads g
  rw [hloops] at hleads
  obtain ⟨-, hreach, waiting, rfl⟩ := hleads
  exact hrun waiting t hreach

/-- Three loops around one jump to the entry, one of them inside another: their tables agree. -/
theorem loops_consistent_nested :
    ∃ (p' : Program) (g₀ g : Graph) (t : LoopTables),
      Graph.discover 0 (OneByte.program [.fork 2, .fork 1, .jump 0]) = .ok (some g₀) p' ∧
        g₀.blocks .x86 = .ok g ∧
      g.loops = .ok t ∧ t.inner.entries.map (·.2.length) = [0, 0, 1] ∧ t.Consistent := by
  have hval : (OneByte.nested? [.fork 2, .fork 1, .jump 0]).map (fun r =>
      r.tables.inner.entries.map (·.2.length)) = some [0, 0, 1] := by
    decide +kernel
  obtain ⟨r, hr, hlen⟩ := Option.map_eq_some_iff.mp hval
  obtain ⟨p', g₀, hfound, hblocks, hloops, -⟩ := OneByte.exists_of_nested? hr
  obtain ⟨hwf, -, -⟩ := Graph.wellFormed_of_blocks (OneByte.program_keyed _) hfound hblocks
  exact ⟨p', g₀, r.graph, r.tables, hfound, hblocks, hloops, hlen,
    (loops_consistent hwf).2 _ hloops⟩

end Exploration

end Decompiler
