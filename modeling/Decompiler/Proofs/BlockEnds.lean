import Decompiler.Proofs.BlockChains
/-!
# How blocks end on x86

The last instruction of a block says where the block goes: it jumps without a condition to the
address written on it, runs on into the next instruction, stops, or branches
(`Graph.blocks_ending`). Which of these it is shows in the jumps that the graph has listed, and in
the successors that it has recorded.
-/

namespace Decompiler

variable {g g₀ : Graph} {a : Int}

/-- Where an instruction jumps to without a condition, if that is written on it. -/
def Insn.jumpsTo? (i : Insn) : Option Int := if X86.isUncondJump i then i.target? else none

namespace Graph

/-- How the block at `a` ends, whose last instruction is `i`. -/
inductive Ending (g : Graph) (a : Int) (i : Insn) : Prop where
  | jumps (v : Int) (next : g.next a = [v]) (listed : i.addr ∈ g.uncondJumps)
    (target : i.jumpsTo? = some v)
  | runsOn (next : g.next a = [i.next]) (unlisted : i.addr ∉ g.uncondJumps)
    (target : i.jumpsTo? = none)
  | stops (next : g.next a = []) (unknown : i.addr ∉ g.succs.keys) (target : i.jumpsTo? = none)
  | branches (x y : Int) (next : g.next a = [x, y])

theorem next_eq_nil_iff (h : g.WellFormed) : g.next a = [] ↔ g.succs.get? a = none := by
  rw [next, OrdMap.getD]
  cases hs : g.succs.get? a with
  | none => simp
  | some l => simp [(h.succs a l hs).2.1]

/-- An address without successors has none after joining either. -/
theorem Merges.not_mem_succs {arch : Arch} (hg : g.WellFormed) (hm : Merges arch g₀ g)
    (hnone : g₀.succs.get? a = none) : a ∉ g.succs.keys := by
  intro hkey
  obtain ⟨next, hnext⟩ := OrdMap.mem_keys.mp hkey
  obtain ⟨l, hl⟩ := OrdMap.mem_keys.mp (hg.succs _ _ hnext).1
  obtain ⟨j, rest, rfl, hj⟩ := hg.heads _ _ hl
  cases rest with
  | nil =>
    rw [hm.succs _ _ j hl rfl, hj, hnone] at hnext
    cases hnext
  | cons k rest =>
    -- The block would go on inside, from an instruction without successors.
    have hfollows := (List.isChain_cons_cons.mp (hm.chain _ _ hl)).1.1
    rw [hj, hnone] at hfollows
    cases hfollows

/-- The blocks of a graph that was discovered on x86 end as their last instruction does. -/
theorem blocks_ending {p p' : Program} (hp : p.Keyed) (hx : p.arch = .x86) {entry : Int}
    (hfound : Graph.discover entry p = .ok (some g₀) p') (hblocks : g₀.blocks .x86 = .ok g)
    {l : List Insn} {i : Insn} (hl : g.nodes.get? a = some l) (hlast : l.getLast? = some i) :
    g.Ending a i := by
  obtain ⟨hwf₀, hcl, -⟩ := Graph.discover_classifies hp hfound
  rw [hx] at hcl
  have hsingle : ∀ a l, g₀.nodes.get? a = some l → ∃ i, l = [i] := hcl.single Arch.noConfusion
  obtain ⟨g', hg', hwf, -, hsame⟩ := Graph.blocks_wellFormed hwf₀ hcl.classified
  obtain rfl : g = g' := Except.ok.inj (hblocks.symm.trans hg')
  obtain ⟨hm, -⟩ := blocks_merges hwf₀ hcl.classified hsingle hblocks
  have hi : g₀.nodes.get? i.addr = some [i] := hm.nodes a l hl i (List.mem_of_getLast? hlast)
  have hsuccs : g.succs.get? a = g₀.succs.get? i.addr := hm.succs a l i hl hlast
  have hnext : g.next a = g₀.next i.addr := by rw [next, next, OrdMap.getD, OrdMap.getD, hsuccs]
  have hway : Discovery.Way .x86 i (g.next a) := hnext ▸ hcl.way i.addr i [] hi
  obtain ⟨u, hu, hlisted⟩ := hcl.classified.uncond i.addr i [] hi
  have hu' : u = X86.isUncondJump i := (Except.ok.inj hu).symm
  rw [← hsame.uncond] at hlisted
  have hshort : (g.next a).length ≤ 2 := by
    rw [next, OrdMap.getD]
    cases hs : g.succs.get? a with
    | none => exact Nat.zero_le 2
    | some next => exact (hwf.succs a next hs).2.2
  by_cases hjump : u = true ∧ i.operands ≠ []
  · have htarget : i.jumpsTo? = i.target? := by rw [Insn.jumpsTo?, ← hu', hjump.1, if_pos rfl]
    have hto := hway.jump (hjump.1 ▸ hu) hjump.2
    cases ht : i.target? with
    | none =>
      rw [ht] at hto htarget
      refine .stops hto (hm.not_mem_succs hwf ?_) htarget
      rw [← hsuccs]
      exact (next_eq_nil_iff hwf).mp hto
    | some v =>
      rw [ht] at hto htarget
      exact .jumps v hto (hlisted.mpr hjump) htarget
  · have htarget : i.jumpsTo? = none := by
      rw [Insn.jumpsTo?, ← hu']
      split
      · rename_i htrue
        have hops : i.operands = [] := by
          by_contra hne
          exact hjump ⟨htrue, hne⟩
        simp [Insn.target?, hops]
      · rfl
    have hrun := hway.run fun h => hjump ⟨Except.ok.inj (hu.symm.trans h.1), h.2⟩
    rcases hn : g.next a with _ | ⟨x, _ | ⟨y, _ | ⟨z, l⟩⟩⟩
    · refine .stops hn (hm.not_mem_succs hwf ?_) htarget
      rw [← hsuccs]
      exact (next_eq_nil_iff hwf).mp hn
    · exact .runsOn (by rw [hn, hrun x hn]) (fun h => hjump (hlisted.mp h)) htarget
    · exact .branches x y hn
    · simp only [hn, List.length_cons] at hshort
      omega

end Graph

end Decompiler
