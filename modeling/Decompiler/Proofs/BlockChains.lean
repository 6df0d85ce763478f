import Decompiler.Proofs.Blocks
import Decompiler.Proofs.OneByteCode
/-!
# Blocks are the maximal chains of a graph

Joining goes once over the nodes of a graph, in the order in which they were found, and changes the
graph under its feet. What comes out does not show this. Every block is a chain of nodes each of
which is the only successor of the one before and has no other predecessor (`Merges`), and no two
blocks are left that could be joined (`Exhausts`). The second holds after one pass because a join
makes nothing joinable that was not: the node behind the one that is appended could have been
appended to it before (`Joinable.of_join`).
-/

namespace Decompiler.Graph

open List OrdMap

variable {arch : Arch} {g₀ g : Graph} {pred addr : Int}

/-! ## One pass is enough -/

theorem replaceFirst_eq_singleton {old new a : Int} {l : List Int}
    (h : replaceFirst old new l = [a]) : (l = [old] ∧ a = new) ∨ l = [a] := by
  cases l with
  | nil => cases h
  | cons b rest =>
    unfold replaceFirst at h
    split at h
    · rename_i hb
      obtain ⟨rfl, rfl⟩ := cons.inj h
      exact .inl ⟨by rw [hb], rfl⟩
    · obtain ⟨rfl, hrest⟩ := cons.inj h
      cases rest with
      | nil => exact .inr rfl
      | cons c rest =>
        exfalso
        unfold replaceFirst at hrest
        split at hrest <;> cases hrest

/-- What can be appended after a join could be appended before, if not to the same node. -/
theorem Joinable.of_join (h : g.WellFormed) (hj : Joinable arch g pred addr) {u v : Int}
    (hv : Joinable arch (g.join pred addr) u v) : ∃ u', Joinable arch g u' v := by
  obtain ⟨i, rest, hi, hjump⟩ := hv.node
  obtain ⟨j, restj, hu, hjumpj⟩ := hv.predNode
  rw [join_nodes] at hi hu
  have hva : v ≠ addr := by
    rintro rfl
    rw [if_pos rfl] at hi
    cases hi
  have hua : u ≠ addr := by
    rintro rfl
    rw [if_pos rfl] at hu
    cases hu
  rw [if_neg hva] at hi
  rw [if_neg hua] at hu
  have hpreds := hv.preds
  rw [join_preds, if_neg hva, Option.map_eq_some_iff] at hpreds
  obtain ⟨l, hl, hreplace⟩ := hpreds
  have hsuccs := hv.succs
  rw [join_succs, if_neg hua] at hsuccs
  rcases replaceFirst_eq_singleton hreplace with ⟨rfl, rfl⟩ | rfl
  · -- The only predecessor was the node that has been appended.
    rw [if_pos rfl] at hsuccs
    rw [if_neg hv.ne] at hi
    exact ⟨addr, hv.ne_entry, hva, ⟨i, rest, hi, hjump⟩, hj.node, hl, hsuccs⟩
  · have hup : u ≠ pred := by
      rintro rfl
      have hedge : g.Edge u v := (mem_iff_edge h hl).mp (mem_singleton.mpr rfl)
      rw [Edge, hj.next_pred] at hedge
      exact hva (mem_singleton.mp hedge)
    rw [if_neg hup] at hu hsuccs
    refine ⟨u, hv.ne_entry, hv.ne, ?_, ⟨j, restj, hu, hjumpj⟩, hl, hsuccs⟩
    by_cases hvp : v = pred
    · rw [hvp]
      exact hj.predNode
    · rw [if_neg hvp] at hi
      exact ⟨i, rest, hi, hjump⟩

/-- The nodes that have been dealt with cannot be appended. -/
def Exhausts (arch : Arch) (todo : List Int) (g : Graph) : Prop :=
  ∀ u v, v ∉ todo → ¬ Joinable arch g u v

theorem Exhausts.skip {rest : List Int} (h : Exhausts arch (addr :: rest) g)
    (hno : ∀ u, ¬ Joinable arch g u addr) : Exhausts arch rest g := by
  intro u v hv hj
  by_cases hva : v = addr
  · exact hno u (hva ▸ hj)
  · exact h u v (fun hin => (mem_cons.mp hin).elim hva hv) hj

theorem Exhausts.join {rest : List Int} (hg : g.WellFormed) (hj : Joinable arch g pred addr)
    (h : Exhausts arch (addr :: rest) g) : Exhausts arch rest (g.join pred addr) := by
  intro u v hv hjv
  have hva : v ≠ addr := by
    rintro rfl
    obtain ⟨i, r, hi, -⟩ := hjv.node
    rw [join_nodes, if_pos rfl] at hi
    cases hi
  obtain ⟨u', hu'⟩ := hj.of_join hg hjv
  exact h u' v (fun hin => (mem_cons.mp hin).elim hva hv) hu'

/-! ## Blocks are chains -/

/-- One instruction comes right after another in a graph: it is the only successor, and has no other
predecessor. -/
def Follows (g : Graph) (i j : Insn) : Prop :=
  g.succs.get? i.addr = some [j.addr] ∧ g.preds.get? j.addr = some [i.addr]

/-- The graph `g` has come from `g₀`, in which every node is one instruction, by joining nodes. -/
structure Merges (arch : Arch) (g₀ g : Graph) : Prop where
  perm : g.nodes.values.flatten.Perm g₀.nodes.values.flatten
  nodes : ∀ a l, g.nodes.get? a = some l → ∀ i ∈ l, g₀.nodes.get? i.addr = some [i]
  chain : ∀ a l, g.nodes.get? a = some l → l.IsChain g₀.Follows
  /-- A block goes on where its last instruction does. -/
  succs : ∀ a l last, g.nodes.get? a = some l → l.getLast? = some last →
    g.succs.get? a = g₀.succs.get? last.addr
  preds : ∀ b ∈ g.nodes.keys, (g.preds.get? b).map List.length = (g₀.preds.get? b).map List.length
  jumps : ∀ a l, g.nodes.get? a = some l → 1 < l.length → ∀ i ∈ l, arch.isJump i = .ok false

theorem Merges.start (h : g.WellFormed) (hsingle : ∀ a l, g.nodes.get? a = some l → ∃ i, l = [i]) :
    Merges arch g g where
  perm := .refl _
  nodes a l hl i hi := by
    obtain ⟨j, rfl⟩ := hsingle a l hl
    obtain ⟨j', rest, hcons, haddr⟩ := h.heads a _ hl
    obtain rfl : i = j' := (mem_singleton.mp hi).trans (cons.inj hcons).1
    rw [haddr, hl, mem_singleton.mp hi]
  chain a l hl := by
    obtain ⟨j, rfl⟩ := hsingle a l hl
    exact isChain_singleton j
  succs a l last hl hlast := by
    obtain ⟨j, rfl⟩ := hsingle a l hl
    obtain ⟨j', rest, hcons, haddr⟩ := h.heads a _ hl
    obtain rfl : j = j' := (cons.inj hcons).1
    obtain rfl : j = last := Option.some.inj hlast
    rw [haddr]
  preds b _ := rfl
  jumps a l hl hlen := by
    obtain ⟨j, rfl⟩ := hsingle a l hl
    exact absurd hlen (Nat.lt_irrefl 1)

/-- Joining two nodes puts the instructions of one behind those of the other. -/
theorem join_perm (h : g.WellFormed) (hj : Joinable arch g pred addr) :
    (g.join pred addr).nodes.values.flatten.Perm g.nodes.values.flatten := by
  have hpred : pred ∈ g.nodes.keys := (h.succs pred _ hj.succs).1
  have haddr : addr ∈ g.nodes.keys.erase pred := by
    obtain ⟨i, rest, hi, -⟩ := hj.node
    exact (mem_erase_of_ne hj.ne).mpr (mem_keys_of_get? hi)
  -- The two nodes and all the others.
  have hsplit : g.nodes.keys.Perm (pred :: addr :: (g.nodes.keys.erase pred).erase addr) :=
    (perm_cons_erase hpred).trans ((perm_cons_erase haddr).cons pred)
  generalize (g.nodes.keys.erase pred).erase addr = others at hsplit
  have hnodup : (pred :: addr :: others).Nodup := hsplit.nodup_iff.mp h.nodup
  obtain ⟨hp, hrest⟩ := nodup_cons.mp hnodup
  obtain ⟨ha, -⟩ := nodup_cons.mp hrest
  have hpo : pred ∉ others := fun hin => hp (mem_cons_of_mem addr hin)
  have hkeys : (g.join pred addr).nodes.keys.Perm (pred :: others) := by
    rw [join_keys h hj]
    refine (hsplit.filter _).trans ?_
    rw [filter_cons_of_pos (by simpa using Ne.symm hj.ne), filter_cons_of_neg (by simp),
      filter_eq_self.mpr]
    intro a hin
    have hne : a ≠ addr := fun he => ha (he ▸ hin)
    simpa using hne
  have hget : ∀ a, (g.join pred addr).nodes.getD a [] =
      if a = addr then [] else if a = pred then g.nodes.getD pred [] ++ g.nodes.getD addr []
      else g.nodes.getD a [] := by
    intro a
    rw [OrdMap.getD, join_nodes]
    split
    · rfl
    · split <;> rfl
  have hothers : others.map ((g.join pred addr).nodes.getD · []) =
      others.map (g.nodes.getD · []) := by
    refine map_congr_left fun a hin => ?_
    have hna : a ≠ addr := fun he => ha (he ▸ hin)
    have hnp : a ≠ pred := fun he => hpo (he ▸ hin)
    rw [hget, if_neg hna, if_neg hnp]
  have hnodup' : (g.join pred addr).nodes.keys.Nodup := by
    rw [join_keys h hj]
    exact h.nodup.filter _
  rw [values_eq_map_keys hnodup' [], values_eq_map_keys h.nodup []]
  refine (hkeys.map _).flatten.trans (Perm.trans ?_ (hsplit.map _).flatten.symm)
  rw [map_cons, map_cons, map_cons, hothers, hget, if_neg (Ne.symm hj.ne), if_pos rfl]
  simp

/-- The instruction at the end of the node appended to and the one at the start of the node that is
appended come right after each other in the graph from which all joining started. -/
theorem Merges.follows (h₀ : g₀.WellFormed) (hm : Merges arch g₀ g) (hj : Joinable arch g pred addr)
    {lp : List Insn} (hlp : g.nodes.get? pred = some lp) {last i : Insn}
    (hlast : lp.getLast? = some last) (hi : i.addr = addr) (haddr : addr ∈ g.nodes.keys) :
    g₀.Follows last i := by
  have hsuccs : g₀.succs.get? last.addr = some [addr] := by
    rw [← hm.succs pred lp last hlp hlast, hj.succs]
  refine ⟨hi ▸ hsuccs, ?_⟩
  have hlen := hm.preds addr haddr
  rw [hj.preds, Option.map_some] at hlen
  obtain ⟨l, hl, hone⟩ := Option.map_eq_some_iff.mp hlen.symm
  obtain ⟨p, rfl⟩ := length_eq_one_iff.mp hone
  have hedge : last.addr ∈ g₀.preds.getD addr [] := by
    rw [mem_preds_iff h₀, Edge, next, getD_of_get? hsuccs]
    exact mem_singleton.mpr rfl
  rw [getD_of_get? hl] at hedge
  rw [hi, hl, mem_singleton.mp hedge]

theorem length_replaceFirst (old new : Int) (l : List Int) :
    (replaceFirst old new l).length = l.length := by
  induction l with
  | nil => rfl
  | cons a rest ih =>
    unfold replaceFirst
    split
    · rfl
    · rw [length_cons, ih, length_cons]

/-- A join keeps the blocks chains. -/
theorem Merges.join (h₀ : g₀.WellFormed) (h : g.WellFormed) (hm : Merges arch g₀ g)
    (hj : Joinable arch g pred addr) : Merges arch g₀ (g.join pred addr) := by
  obtain ⟨i, ra, ha, hjump⟩ := hj.node
  obtain ⟨j, rp, hp, hjumpp⟩ := hj.predNode
  obtain ⟨_, _, hcons, hhead⟩ := h.heads addr _ ha
  obtain ⟨rfl, -⟩ := cons.inj hcons
  -- The block at `pred` is the two nodes, one behind the other; the others are as they were.
  have hcases : ∀ a l, (g.join pred addr).nodes.get? a = some l →
      a ≠ addr ∧ ((a = pred ∧ l = (j :: rp) ++ i :: ra) ∨ a ≠ pred ∧ g.nodes.get? a = some l) := by
    intro a l hl
    rw [join_nodes] at hl
    split at hl
    · cases hl
    · rename_i hne
      refine ⟨hne, ?_⟩
      split at hl
      · rename_i hpred
        rw [getD_of_get? hp, getD_of_get? ha] at hl
        exact .inl ⟨hpred, (Option.some.inj hl).symm⟩
      · rename_i hpred
        exact .inr ⟨hpred, hl⟩
  -- A node of one instruction is no jump by its head, a longer one has none.
  have hplain : ∀ {a : Int} {k : Insn} {r : List Insn}, g.nodes.get? a = some (k :: r) →
      arch.isJump k = .ok false → ∀ k' ∈ k :: r, arch.isJump k' = .ok false := by
    intro a k r hk hno k' hk'
    cases r with
    | nil => rwa [mem_singleton.mp hk']
    | cons k₂ r => exact hm.jumps a _ hk (by simp) k' hk'
  refine ⟨(join_perm h hj).trans hm.perm, fun a l hl k hk => ?_, fun a l hl => ?_,
    fun a l last hl hlast => ?_, fun b hb => ?_, fun a l hl hlen k hk => ?_⟩
  · rcases (hcases a l hl).2 with ⟨-, rfl⟩ | ⟨-, hl⟩
    · rcases mem_append.mp hk with hk | hk
      · exact hm.nodes pred _ hp k hk
      · exact hm.nodes addr _ ha k hk
    · exact hm.nodes a l hl k hk
  · rcases (hcases a l hl).2 with ⟨-, rfl⟩ | ⟨-, hl⟩
    · refine isChain_append.mpr ⟨hm.chain pred _ hp, hm.chain addr _ ha, fun x hx y hy => ?_⟩
      obtain rfl : i = y := Option.some.inj hy
      exact hm.follows h₀ hj hp hx hhead (mem_keys_of_get? ha)
    · exact hm.chain a l hl
  · obtain ⟨hne, ⟨rfl, rfl⟩ | ⟨hnp, hl⟩⟩ := hcases a l hl
    · rw [List.getLast?_append_of_ne_nil _ (cons_ne_nil i ra)] at hlast
      rw [join_succs, if_neg hne, if_pos rfl]
      exact hm.succs addr _ last ha hlast
    · rw [join_succs, if_neg hne, if_neg hnp]
      exact hm.succs a l last hl hlast
  · rw [join_keys h hj, mem_filter] at hb
    have hne : b ≠ addr := by simpa using hb.2
    rw [join_preds, if_neg hne, Option.map_map, ← hm.preds b hb.1]
    congr 1
    funext l
    exact length_replaceFirst addr pred l
  · rcases (hcases a l hl).2 with ⟨-, rfl⟩ | ⟨-, hl⟩
    · rcases mem_append.mp hk with hk | hk
      · exact hplain hp hjumpp k hk
      · exact hplain ha hjump k hk
    · exact hm.jumps a l hl hlen k hk

/-- Joining all nodes of a graph gives chains that cannot be joined any further. -/
theorem blocks_merges (h : g₀.WellFormed) (hc : g₀.Classified arch)
    (hsingle : ∀ a l, g₀.nodes.get? a = some l → ∃ i, l = [i]) (hblocks : g₀.blocks arch = .ok g) :
    Merges arch g₀ g ∧ ∀ u v, ¬ Joinable arch g u v := by
  have hstart : Exhausts arch g₀.nodes.keys g₀ := by
    intro u v hv hj
    obtain ⟨i, rest, hi, -⟩ := hj.node
    exact hv (mem_keys_of_get? hi)
  obtain ⟨g', hall, -, -, hm, hmax⟩ :=
    joinAll_induction (P := fun todo g => Merges arch g₀ g ∧ Exhausts arch todo g)
    (fun hno hP => ⟨hP.1, hP.2.skip hno⟩)
    (fun hg hj hP => ⟨hP.1.join h hg hj, hP.2.join hg hj⟩) g₀.nodes.keys h hc
    h.nodup (List.Subset.refl _) ⟨Merges.start h hsingle, hstart⟩
  obtain rfl : g = g' := Except.ok.inj (hblocks.symm.trans hall)
  exact ⟨hm, fun u v => hmax u v not_mem_nil⟩

/-- Joining on x86 gives exactly the maximal chains. It never fails. The blocks hold the
instructions of the nodes, each once; a block is a chain of nodes, each the only successor of the
one before and without another predecessor; it goes on where its last instruction did, and
predecessors are the converse of successors. The entry still is a block, jumps are alone in theirs,
and there is no edge left along which two blocks could be joined. -/
theorem blocks_maximal_chains {p p' : Program} (hp : p.Keyed) (hx : p.arch = .x86) {entry : Int}
    (hfound : Graph.discover entry p = .ok (some g₀) p') :
    ∃ g, g₀.blocks .x86 = .ok g ∧ g.nodes.keys.Nodup ∧
      g.nodes.values.flatten.Perm g₀.nodes.values.flatten ∧
      (∀ a l, g.nodes.get? a = some l →
        (∃ i rest, l = i :: rest ∧ i.addr = a) ∧ (∀ i ∈ l, g₀.nodes.get? i.addr = some [i]) ∧
          l.IsChain g₀.Follows) ∧
      (∀ a l last, g.nodes.get? a = some l → l.getLast? = some last →
        g.succs.get? a = g₀.succs.get? last.addr) ∧
      (∀ a b, (g.preds.getD b []).count a = (g.succs.getD a []).count b) ∧
      (∀ a b, b ∈ g.succs.getD a [] → a ∈ g.nodes.keys ∧ b ∈ g.nodes.keys) ∧
      g.entry = entry ∧ entry ∈ g.nodes.keys ∧
      (∀ a l, g.nodes.get? a = some l → 1 < l.length → ∀ i ∈ l, i.jumpGroup = false) ∧
      ¬ ∃ u v i j ri rj, v ∈ g.succs.getD u [] ∧ g.nodes.get? u = some (i :: ri) ∧
        g.nodes.get? v = some (j :: rj) ∧
        i.jumpGroup = false ∧ j.jumpGroup = false ∧ v ≠ entry ∧ (g.preds.getD v []).length = 1 ∧
        (g.succs.getD u []).length = 1 := by
  obtain ⟨hwf₀, hclass₀, hentry₀⟩ := Graph.discover_wellFormed hp hfound
  rw [hx] at hclass₀
  have hsingle : ∀ a l, g₀.nodes.get? a = some l → ∃ i, l = [i] := fun a l hl =>
    Graph.discover_single hp (by rw [hx]; exact Arch.noConfusion) hfound hl
  obtain ⟨g, hblocks, hwf, -, hsame⟩ := Graph.blocks_wellFormed hwf₀ hclass₀
  obtain ⟨hm, hmax⟩ := blocks_merges hwf₀ hclass₀ hsingle hblocks
  obtain rfl : g.entry = entry := hsame.entry.trans hentry₀
  refine ⟨g, hblocks, hwf.nodup, hm.perm, fun a l hl =>
    ⟨hwf.heads a l hl, hm.nodes a l hl, hm.chain a l hl⟩, hm.succs,
    hwf.converse, fun a b hab => ⟨?_, hwf.closed a b hab⟩, rfl, hwf.entry_mem,
    fun a l hl hlen i hi => Except.ok.inj (hm.jumps a l hl hlen i hi), ?_⟩
  · by_contra ha
    rw [getD_of_not_mem] at hab
    · cases hab
    · intro hin
      obtain ⟨l, hl⟩ := mem_keys.mp hin
      exact ha (hwf.succs a l hl).1
  · rintro ⟨u, v, i, j, ri, rj, hedge, hu, hv, hi, hj, hne, hpreds, hsuccs⟩
    -- The edge is the only one out of `u` and the only one into `v`.
    have honly : ∀ {m : Edges} {k x : Int}, x ∈ m.getD k [] → (m.getD k []).length = 1 →
        m.get? k = some [x] := by
      intro m k x hmem hlen
      obtain ⟨y, hy⟩ := length_eq_one_iff.mp hlen
      rw [hy] at hmem
      obtain rfl := mem_singleton.mp hmem
      cases hk : m.get? k with
      | none =>
        rw [OrdMap.getD, hk] at hy
        cases hy
      | some l => rw [← hy, getD_of_get? hk]
    have hp := honly ((mem_preds_iff hwf).mpr hedge) hpreds
    exact hmax u v ⟨hne, ne_of_preds hwf (mem_keys_of_get? hv) hne hp,
      ⟨j, rj, hv, by rw [← hj]; rfl⟩, ⟨i, ri, hu, by rw [← hi]; rfl⟩, hp, honly hedge hsuccs⟩

/-- Two straight pieces of code around a conditional jump become one block each. -/
theorem blocks_maximal_chains_fork :
    ∃ (p' : Program) (g₀ g : Graph),
      Graph.discover 0 (OneByte.program [.run, .run, .fork 5, .run, .run, .run, .ret]) =
        .ok (some g₀) p' ∧
      g₀.blocks .x86 = .ok g ∧ g.nodes.entries.map (fun e => (e.1, e.2.map (·.addr))) =
        [(0, [0, 1]), (2, [2]), (3, [3, 4]), (5, [5, 6])] ∧
      g.nodes.values.flatten.Perm g₀.nodes.values.flatten := by
  have hval : ((OneByte.graph? [.run, .run, .fork 5, .run, .run, .run, .ret]).bind fun g₀ =>
      (g₀.blocks .x86).toOption.map fun g => g.nodes.entries.map fun e => (e.1, e.2.map (·.addr))) =
      some [(0, [0, 1]), (2, [2]), (3, [3, 4]), (5, [5, 6])] := by
    decide +kernel
  obtain ⟨g₀, hg₀, hg⟩ := Option.bind_eq_some_iff.mp hval
  obtain ⟨g, hg, hkeys⟩ := Option.map_eq_some_iff.mp hg
  obtain ⟨p', hfound⟩ := OneByte.discover_of_graph? hg₀
  obtain ⟨g', hblocks, -, hperm, -⟩ :=
    blocks_maximal_chains (OneByte.program_keyed _) (OneByte.program_arch _) hfound
  obtain rfl : g = g' := Except.ok.inj ((OneByte.toOption_eq_some hg).symm.trans hblocks)
  exact ⟨p', g₀, g, hfound, hblocks, hkeys, hperm⟩

end Decompiler.Graph
