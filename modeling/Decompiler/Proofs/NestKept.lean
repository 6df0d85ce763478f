import Decompiler.Proofs.Progress
/-!
# The loops that are found are the loops of the nest

Marks go from a loop to the loops around it and inside it without a look at what has been marked
before, and are taken off along the loops around. All of this comes to an end, because a loop is
recorded after the loops inside it: going inwards the records get older, going outwards they get
younger, and taking off a mark leaves one mark less. So the bounds on the number of steps are never
met (`closure_steps`, `unmark_steps`). No mark is left at the end, and with that the nest has every
loop that was found, and a node that was put off always has a branch to go to
(`Graph.loopNest_keeps_loops`).
-/

namespace Decompiler

open List

namespace LoopNest

variable {g : Graph} {t : LoopTables} {links : OrdMap LoopId (List LoopId)}

/-! ## Marking and unmarking come to an end -/

/-- If the links go down, any two numbers of steps that are enough give the same closure. -/
theorem closure_steps {rank : LoopId → Nat}
    (hrank : ∀ k k', k' ∈ links.getD k [] → rank k' < rank k) :
    ∀ (fuel fuel' : Nat) (k : LoopId) (acc : List LoopId), rank k < fuel → rank k < fuel' →
      closure links fuel k acc = closure links fuel' k acc := by
  intro fuel
  induction fuel with
  | zero => intro fuel' k acc h; omega
  | succ fuel ih =>
    intro fuel' k acc h h'
    obtain ⟨fuel', rfl⟩ : ∃ f, fuel' = f + 1 := ⟨fuel' - 1, by omega⟩
    rw [closure_succ, closure_succ]
    refine foldl_ext _ _ _ fun acc k' hk' => ?_
    have hlt := hrank k k' hk'
    exact ih fuel' k' acc (by omega) (by omega)

/-- Any two numbers of steps that exceed the number of marks unmark the same loops. -/
theorem unmark_steps : ∀ (fuel fuel' : Nat) (k : LoopId) (marked : List LoopId), marked.Nodup →
    marked.length < fuel → marked.length < fuel' →
      unmark t fuel k marked = unmark t fuel' k marked := by
  intro fuel
  induction fuel with
  | zero => intro fuel' k marked _ h; omega
  | succ fuel ih =>
    intro fuel' k marked hnodup h h'
    obtain ⟨fuel', rfl⟩ : ∃ f, fuel' = f + 1 := ⟨fuel' - 1, by omega⟩
    rw [unmark, unmark]
    split
    · rename_i hk
      have hfold : ∀ (l m : List LoopId), m.Nodup → m.length < fuel → m.length < fuel' →
          l.foldl (fun m k' => unmark t fuel k' m) m =
          l.foldl (fun m k' => unmark t fuel' k' m) m := by
        intro l
        induction l with
        | nil => intro m _ _ _; rfl
        | cons k' l ihl =>
          intro m hm hlen hlen'
          obtain ⟨hun, -⟩ := unmark_unmarks (t := t) fuel' k' m hm hlen'
          have hle := hun.sublist.length_le
          rw [foldl_cons, foldl_cons, ih fuel' k' m hm hlen hlen']
          exact ihl _ (hm.sublist hun.sublist) (lt_of_le_of_lt hle hlen) (lt_of_le_of_lt hle hlen')
      have hlen := length_erase_of_mem hk
      have hpos := length_pos_of_mem hk
      exact hfold _ _ (hnodup.erase k) (by omega) (by omega)
    · rfl

end LoopNest

open LoopNest Structuring

/-- Whatever the order of sets in the search for loops and in the passes after it, the marks for
spurious loops are set and taken off again in finitely many steps, whatever number of steps beyond
the number of loops is allowed, and none is left. So the nest of a function has all the loops that
were found, and in the structuring of the function a node that was put off has a branch among those
that lead to it, whichever comes last. -/
theorem Graph.loopNest_keeps_loops {p p' : Program} (hp : p.Keyed) {entry : Int} {g₀ g : Graph}
    (hfound : Graph.discover entry p = .ok (some g₀) p') (hblocks : g₀.blocks p.arch = .ok g)
    {t : LoopTables} {equiv : OrdMap LoopId (List LoopId)} {spurious : List LoopId}
    (hfinds : g.Finds t equiv spurious) :
    (WellFounded fun k' k => k' ∈ t.outer.getD k []) ∧
      (WellFounded fun k' k => k' ∈ t.inner.getD k []) ∧ (∀ steps, t.own.size < steps →
        (∀ k marked, closure t.outer steps k marked = closure t.outer (t.own.size + 1) k marked) ∧
        (∀ k marked, closure t.inner steps k marked = closure t.inner (t.own.size + 1) k marked) ∧
        ∀ k marked, marked.Nodup → marked ⊆ t.own.keys →
          unmark t steps k marked = unmark t (t.own.size + 1) k marked) ∧
      spurious = [] ∧
      ∀ nest, assemble g t equiv spurious = .ok nest →
        nest.spurious = [] ∧ nest.tables = t ∧
          ∀ (further : Bool) (labels : OrdMap Int String) (s : Build),
            Run ⟨p.arch, g, nest, further⟩ (Build.start entry labels ∅) s →
            ∀ addr q, s.pending.get? addr = some q → ∀ b source loopStart,
              leastNested s.draft nest.spurious addr 0
                ((q.addWay b source loopStart).branches.zip
                  (q.addWay b source loopStart).loopStarts) none ≠ none := by
  obtain ⟨hwf, -, -⟩ := Graph.wellFormed_of_blocks hp hfound hblocks
  obtain ⟨hsound, hall, hnone⟩ := hfinds.sound hwf
  have hage := age_le hall hsound
  refine ⟨?_, ?_, fun steps hsteps =>
    ⟨fun k marked => ?_, fun k marked => ?_, fun k marked hnodup hsub => ?_⟩,
    hnone, fun nest hnest => ?_⟩
  · exact Subrelation.wf (fun {k' k} hk => age_outer hall hsound k k' hk)
      (measure fun k => t.own.size - age t k).wf
  · exact Subrelation.wf (fun {k' k} hk => age_inner hsound k k' hk) (measure (age t)).wf
  · exact closure_steps (age_outer hall hsound) steps _ k marked (by omega) (by omega)
  · have := hage k
    exact closure_steps (age_inner hsound) steps _ k marked (by omega) (by omega)
  · have hlen := (hnodup.subperm hsub).length_le
    rw [OrdMap.length_keys] at hlen
    exact unmark_steps steps _ k marked hnodup (by omega) (by omega)
  · obtain ⟨htables, hspurious⟩ := (hfinds.assemble_iff hwf).2 nest hnest
    refine ⟨hspurious, htables, fun further labels s hrun addr q hq b source loopStart hnone => ?_⟩
    obtain ⟨hsubj, rfl⟩ :=
      Graph.HasNest.subject ⟨t, equiv, spurious, hfinds, hnest⟩ hp hfound hblocks further
    obtain ⟨-, hlen⟩ := ((OnWay.start hsubj labels ∅).of_run hsubj hrun).ready.pending addr q hq
    have hzip : (q.addWay b source loopStart).branches.zip
        (q.addWay b source loopStart).loopStarts ≠ [] := by
      rw [Pending.addWay, zip_append hlen]
      simp
    obtain ⟨r, hr⟩ := leastNested_isSome s.draft addr _ 0 none (.inr hzip)
    rw [hspurious, hr] at hnone
    cases hnone

/-- Three loops around one jump to the entry: one of them is marked with everything around it, and
no mark is left. -/
theorem Graph.loopNest_keeps_loops_marked :
    ∃ (p' : Program) (g₀ g : Graph) (t : LoopTables) (nest : LoopNest),
      Graph.discover 0 (OneByte.program [.fork 2, .fork 1, .jump 0]) = .ok (some g₀) p' ∧
      g₀.blocks .x86 = .ok g ∧ g.loops = .ok t ∧ g.loopNest = .ok nest ∧
      markAll t (equivalences t.own.entries ∅) t.own.entries [] ≠ [] ∧ nest.spurious = [] ∧
        nest.tables = t := by
  have hval : (OneByte.nested? [.fork 2, .fork 1, .jump 0]).map (fun r =>
      markAll r.tables (equivalences r.tables.own.entries ∅) r.tables.own.entries [] != []) =
        some true := by
    decide +kernel
  obtain ⟨r, hr, hmarked⟩ := Option.map_eq_some_iff.mp hval
  obtain ⟨p', g₀, hfound, hblocks, hloops, hnest⟩ := OneByte.exists_of_nested? hr
  obtain ⟨-, -, -, -, hkept⟩ := Graph.loopNest_keeps_loops (OneByte.program_keyed _) hfound hblocks
    (Graph.finds_of_loops hloops)
  obtain ⟨t, ht, hassemble⟩ := Except.bind_eq_ok.mp hnest
  obtain rfl : r.tables = t := Except.ok.inj (hloops.symm.trans ht)
  obtain ⟨hspurious, htables, -⟩ := hkept r.nest hassemble
  exact ⟨p', g₀, r.graph, r.tables, r.nest, hfound, hblocks, hloops, hnest, bne_iff_ne.mp hmarked,
    hspurious, htables⟩

end Decompiler
