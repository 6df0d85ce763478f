import Decompiler.Proofs.GotoPasses
import Decompiler.Proofs.OneByteCode
/-!
# Where gotos are put between blocks

The pass that puts gotos between blocks first collects the gaps of a branch with their positions,
and then puts the gotos in from the first to the last. A position is counted in the branch as it
was, so only the first goto of a branch comes to stand between its two blocks: the second one stands
one place too early, the third two places, and so on. Whether a block runs on is looked up under the
address of its last instruction, in a table of the first addresses of nodes; a block of several
instructions is not found there. So a branch gets the gotos that belong into it (`branchBridged`)
exactly if it has at most one gap, and the table shows it (`linkBlocks_places`).
-/

namespace Decompiler

open List

variable {uncond : List Int} {succs table : Edges} {i : Nat} {e : Nat × Int} {a : Int}

/-! ## Putting gotos in from the first to the last -/

section Insertion

variable {nodes : List Node} {gotos : List (Nat × Int)}

theorem insertGotos_cons (e : Nat × Int) : insertGotos nodes (e :: gotos) =
    insertGotos (nodes.insertIdx e.1 (.goto e.2 false)) gotos := rfl

theorem getElem?_insertGotos_of_lt (h : ∀ e ∈ gotos, i < e.1) :
    (insertGotos nodes gotos)[i]? = nodes[i]? := by
  induction gotos generalizing nodes with
  | nil => rfl
  | cons e gotos ih =>
    obtain ⟨he, hgotos⟩ := forall_mem_cons.mp h
    rw [insertGotos_cons, ih hgotos, List.getElem?_insertIdx_of_lt he]

/-- Every goto comes to stand at its position, counted in the new branch. -/
theorem getElem?_insertGotos (hsorted : gotos.Pairwise fun e e' => e.1 < e'.1)
    (hle : ∀ e ∈ gotos, e.1 ≤ nodes.length) :
    ∀ e ∈ gotos, (insertGotos nodes gotos)[e.1]? = some (.goto e.2 false) := by
  induction gotos generalizing nodes with
  | nil => exact forall_mem_nil _
  | cons e gotos ih =>
    obtain ⟨hlt, hsorted⟩ := pairwise_cons.mp hsorted
    obtain ⟨he, hle⟩ := forall_mem_cons.mp hle
    rw [insertGotos_cons]
    refine forall_mem_cons.mpr ⟨?_, ih hsorted fun e' he' => ?_⟩
    · rw [getElem?_insertGotos_of_lt hlt, List.getElem?_insertIdx_self, if_pos he]
    · rw [length_insertIdx_of_le_length he]
      exact (hle e' he').trans (Nat.le_succ _)

/-- Taking the nodes at the positions of the gotos out again, from the last to the first. -/
theorem eraseIdx_insertGotos :
    gotos.foldr (fun e nodes => nodes.eraseIdx e.1) (insertGotos nodes gotos) = nodes := by
  induction gotos generalizing nodes with
  | nil => rfl
  | cons e gotos ih => rw [foldr_cons, insertGotos_cons, ih, eraseIdx_insertIdx_self]

theorem length_insertGotos (hle : ∀ e ∈ gotos, e.1 ≤ nodes.length) :
    (insertGotos nodes gotos).length = nodes.length + gotos.length := by
  induction gotos generalizing nodes with
  | nil => rfl
  | cons e gotos ih =>
    obtain ⟨he, hle⟩ := forall_mem_cons.mp hle
    have hlength := length_insertIdx_of_le_length he (.goto e.2 false)
    rw [insertGotos_cons, ih fun e' he' => hlength ▸ (hle e' he').trans (Nat.le_succ _), hlength,
      length_cons]
    omega

/-- Puts gotos in from the last to the first, so that all positions are counted in the branch as it
was. -/
def insertGotosBack (nodes : List Node) (gotos : List (Nat × Int)) : List Node :=
  gotos.foldr (fun e nodes => nodes.insertIdx e.1 (.goto e.2 false)) nodes

theorem insertGotosBack_cons (e : Nat × Int) : insertGotosBack nodes (e :: gotos) =
    (insertGotosBack nodes gotos).insertIdx e.1 (.goto e.2 false) := rfl

theorem length_insertGotosBack (hle : ∀ e ∈ gotos, e.1 ≤ nodes.length) :
    (insertGotosBack nodes gotos).length = nodes.length + gotos.length := by
  induction gotos with
  | nil => rfl
  | cons e gotos ih =>
    obtain ⟨he, hle⟩ := forall_mem_cons.mp hle
    have hbound : e.1 ≤ (insertGotosBack nodes gotos).length := by
      rw [ih hle]
      exact he.trans (Nat.le_add_right _ _)
    rw [insertGotosBack_cons, length_insertIdx_of_le_length hbound, ih hle, length_cons,
      Nat.add_assoc]

theorem getElem?_insertGotosBack_of_lt (h : ∀ e ∈ gotos, i < e.1) :
    (insertGotosBack nodes gotos)[i]? = nodes[i]? := by
  induction gotos with
  | nil => rfl
  | cons e gotos ih =>
    obtain ⟨he, hgotos⟩ := forall_mem_cons.mp h
    rw [insertGotosBack_cons, List.getElem?_insertIdx_of_lt he, ih hgotos]

/-- With gotos put in from the last to the first, the second one stands one place behind its
position. -/
theorem getElem?_insertGotosBack_second {e' : Nat × Int}
    (hsorted : (e :: e' :: gotos).Pairwise fun e e' => e.1 < e'.1) :
    (insertGotosBack nodes (e :: e' :: gotos))[e'.1]? = nodes[e'.1 - 1]? := by
  obtain ⟨hlt, hsorted⟩ := pairwise_cons.mp hsorted
  have hee' : e.1 < e'.1 := hlt e' mem_cons_self
  have hfront : ∀ d ∈ e' :: gotos, e'.1 - 1 < d.1 := by
    refine forall_mem_cons.mpr ⟨by omega, fun d hd => ?_⟩
    have hd' := (pairwise_cons.mp hsorted).1 d hd
    omega
  rw [insertGotosBack_cons, List.getElem?_insertIdx_of_gt hee',
    getElem?_insertGotosBack_of_lt hfront]

/-- Both orders give the same exactly if there is at most one goto. -/
theorem insertGotos_eq_back_iff {nodes' : List Node} {gotos' : List (Nat × Int)}
    (hsub : gotos.Sublist gotos') (hlength : nodes.length = nodes'.length)
    (hsorted : gotos'.Pairwise fun e e' => e.1 < e'.1) (hle : ∀ e ∈ gotos', e.1 ≤ nodes'.length)
    (hfront : ∀ e ∈ gotos', ∀ target, nodes'[e.1 - 1]? ≠ some (.goto target false)) :
    insertGotos nodes gotos = insertGotosBack nodes' gotos' ↔
      (gotos = gotos' ∧ gotos'.length ≤ 1) ∧ nodes = nodes' := by
  constructor
  · intro heq
    have hcount : gotos.length = gotos'.length := by
      have hlengths := congrArg List.length heq
      rw [length_insertGotos fun e he => hlength ▸ hle e (hsub.subset he),
        length_insertGotosBack hle] at hlengths
      omega
    obtain rfl := hsub.eq_of_length hcount
    rcases gotos with _ | ⟨e, _ | ⟨e', gotos⟩⟩
    · exact ⟨⟨rfl, Nat.zero_le _⟩, heq⟩
    · exact ⟨⟨rfl, le_rfl⟩, insertIdx_injective _ _ heq⟩
    · -- In front of the second position there is a block, and the goto has taken its place.
      have hmem : e' ∈ e :: e' :: gotos := .tail _ (.head _)
      have hgoto := getElem?_insertGotos hsorted (fun d hd => hlength ▸ hle d hd : ∀ d ∈ _, d.1 ≤
        nodes.length) e' hmem
      rw [heq, getElem?_insertGotosBack_second hsorted] at hgoto
      exact absurd hgoto (hfront e' hmem e'.2)
  · rintro ⟨⟨rfl, hone⟩, rfl⟩
    rcases gotos with _ | ⟨e, _ | ⟨e', gotos⟩⟩
    · rfl
    · rfl
    · simp at hone

end Insertion

/-! ## The gaps of a branch -/

/-- The block right in front of a position in a branch; `previous` is the one right in front of the
branch. -/
def blockBefore (previous : Option (List Item)) (nodes : List Node) : Nat → Option (List Item)
  | 0 => previous
  | m + 1 => nodes[m]?.bind Node.items?

variable {nodes : List Node}

/-- Where there is a gap: between two neighbouring blocks. -/
theorem mem_gaps_iff : ∀ {k : Nat} {previous : Option (List Item)},
    e ∈ gaps uncond succs k previous nodes ↔ ∃ m b b', e.1 = k + m ∧
      blockBefore previous nodes m = some b ∧
      nodes[m]?.bind Node.items? = some b' ∧ gap? uncond succs b b' = some e.2 := by
  induction nodes with
  | nil => intro k previous; simp [gaps]
  | cons n rest ih =>
    intro k previous
    have hhead :
        e ∈ ((previous.bind fun p => n.items?.bind (gap? uncond succs p)).map (k, ·)).toList ↔
          ∃ b b', e.1 = k ∧ previous = some b ∧ n.items? = some b' ∧
            gap? uncond succs b b' = some e.2 := by
      rw [Option.mem_toList, Option.map_eq_some_iff]
      constructor
      · rintro ⟨a, ha, rfl⟩
        obtain ⟨b, hb, ha⟩ := Option.bind_eq_some_iff.mp ha
        obtain ⟨b', hb', ha⟩ := Option.bind_eq_some_iff.mp ha
        exact ⟨b, b', rfl, hb, hb', ha⟩
      · rintro ⟨b, b', hk, hb, hb', ha⟩
        exact ⟨e.2, by rw [hb, Option.bind_some, hb', Option.bind_some, ha], Prod.ext hk.symm rfl⟩
    have hbefore : ∀ m, blockBefore n.items? rest m = blockBefore previous (n :: rest) (m + 1) := by
      intro m
      cases m <;> rfl
    rw [gaps, mem_append, hhead, ih]
    -- The gap is in front of the first node, or further on.
    constructor
    · rintro (⟨b, b', hk, hb, hb', ha⟩ | ⟨m, b, b', hk, hb, hb', ha⟩)
      · exact ⟨0, b, b', hk, hb, hb', ha⟩
      · exact ⟨m + 1, b, b', by omega, hbefore m ▸ hb, hb', ha⟩
    · rintro ⟨m, b, b', hk, hb, hb', ha⟩
      cases m with
      | zero => exact .inl ⟨b, b', hk, hb, hb', ha⟩
      | succ m => exact .inr ⟨m, b, b', by omega, (hbefore m).trans hb, hb', ha⟩

theorem gaps_sorted : ∀ {k : Nat} {previous : Option (List Item)},
    (gaps uncond succs k previous nodes).Pairwise fun e e' => e.1 < e'.1 := by
  induction nodes with
  | nil => intro k previous; exact .nil
  | cons n rest ih =>
    intro k previous
    refine pairwise_append.mpr ⟨?_, ih, fun e he e' he' => ?_⟩
    · cases previous.bind fun p => n.items?.bind (gap? uncond succs p) with
      | none => exact .nil
      | some a => exact pairwise_singleton _ _
    · obtain ⟨a, -, rfl⟩ := Option.map_eq_some_iff.mp (Option.mem_toList.mp he)
      obtain ⟨m, -, -, hk, -⟩ := mem_gaps_iff.mp he'
      show k < e'.1
      omega

theorem le_length_of_mem_gaps : ∀ e ∈ gaps uncond succs 0 none nodes, e.1 ≤ nodes.length := by
  intro e he
  obtain ⟨m, b, b', hk, -, hb', -⟩ := mem_gaps_iff.mp he
  obtain ⟨n, hn, -⟩ := Option.bind_eq_some_iff.mp hb'
  have hm := (List.getElem?_eq_some_iff.mp hn).1
  omega

/-- The node in front of a gap is a block. -/
theorem block_of_mem_gaps (he : e ∈ gaps uncond succs 0 none nodes) :
    ∃ b, nodes[e.1 - 1]? = some (.block b) := by
  obtain ⟨m, b, b', hk, hb, -⟩ := mem_gaps_iff.mp he
  cases m with
  | zero => cases hb
  | succ m =>
    obtain ⟨n, hn, hitems⟩ := Option.bind_eq_some_iff.mp hb
    have hm : e.1 - 1 = m := by omega
    rw [hm, hn, eq_block_of_items? hitems]
    exact ⟨b, rfl⟩

section

variable (h : ∀ a, succs.contains a = true → table.contains a = true)

include h in
theorem gap?_mono {b b' : List Item}
    (hgap : gap? uncond succs b b' = some a) : gap? uncond table b b' = some a := by
  obtain ⟨i, hi, hgap⟩ := Option.bind_eq_some_iff.mp hgap
  obtain ⟨j, hj, hgap⟩ := Option.bind_eq_some_iff.mp hgap
  rw [Option.ite_none_right_eq_some] at hgap
  obtain ⟨hon, hnext⟩ := hgap
  have hon' : (i.addr ∉ uncond && table.contains i.addr && i.next ≠ j.addr) = true := by
    simp only [Bool.and_eq_true] at hon ⊢
    exact ⟨⟨hon.1.1, h _ hon.1.2⟩, hon.2⟩
  simp only [gap?, hi, hj, Option.bind_eq_bind, Option.bind_some]
  rw [if_pos hon']
  exact hnext

include h in
theorem gaps_sublist : ∀ {k : Nat} {previous : Option (List Item)},
      (gaps uncond succs k previous nodes).Sublist (gaps uncond table k previous nodes) := by
  induction nodes with
  | nil => intro k previous; exact .slnil
  | cons n rest ih =>
    intro k previous
    refine List.Sublist.append ?_ ih
    cases hgap : previous.bind fun p => n.items?.bind (gap? uncond succs p) with
    | none => exact nil_sublist _
    | some a =>
      obtain ⟨b, hb, hgap⟩ := Option.bind_eq_some_iff.mp hgap
      obtain ⟨b', hb', hgap⟩ := Option.bind_eq_some_iff.mp hgap
      rw [hb, Option.bind_some, hb', Option.bind_some, gap?_mono h hgap]

/-! ## The gotos where they belong -/

mutual

/-- A node with a goto in every gap inside it. -/
def Node.bridged (uncond : List Int) (table : Edges) : Node → Node
  | .ifElse jump expected place next other slot fused =>
    .ifElse jump expected place (branchBridged uncond table none next)
      (branchBridged uncond table none other) slot fused
  | .loop endless place body => .loop endless place (branchBridged uncond table none body)
  | n => n

/-- A branch with a goto in every gap: right behind the block that runs on, to where it runs on.
`previous` is the block right in front. -/
def branchBridged (uncond : List Int) (table : Edges) (previous : Option (List Item)) :
    List Node → List Node
  | [] => []
  | n :: rest =>
    ((previous.bind fun p => n.items?.bind (gap? uncond table p)).map fun a =>
      Node.goto a false).toList ++
      n.bridged uncond table :: branchBridged uncond table n.items? rest

end

theorem insertIdx_length_append {α : Type} (l l' : List α) (a : α) :
    (l ++ l').insertIdx l.length a = l ++ a :: l' := by
  induction l with
  | nil => rfl
  | cons b l ih => exact congrArg (b :: ·) ih

/-- The gotos where they belong are those put in from the last to the first. -/
theorem append_branchBridged : ∀ (before : List Node) (previous : Option (List Item)),
    before ++ branchBridged uncond table previous nodes =
      insertGotosBack (before ++ nodes.map (Node.bridged uncond table))
        (gaps uncond table before.length previous nodes) := by
  -- What is done stands in front, so that the position of the next node is a length.
  induction nodes with
  | nil => intro before previous; rfl
  | cons n rest ih =>
    intro before previous
    have hrest : before ++ n.bridged uncond table :: branchBridged uncond table n.items? rest =
        insertGotosBack (before ++ n.bridged uncond table :: rest.map (Node.bridged uncond table))
          (gaps uncond table (before.length + 1) n.items? rest) := by
      simpa using ih (before ++ [n.bridged uncond table]) n.items?
    rw [branchBridged, gaps, map_cons]
    cases previous.bind fun p => n.items?.bind (gap? uncond table p) with
    | none => exact hrest
    | some a =>
      have hinsert : before ++ Node.goto a false :: n.bridged uncond table ::
          branchBridged uncond table n.items? rest =
          (before ++ n.bridged uncond table :: branchBridged uncond table n.items? rest).insertIdx
            before.length (.goto a false) :=
        (insertIdx_length_append _ _ _).symm
      rw [hrest] at hinsert
      exact hinsert

theorem branchBridged_eq (nodes : List Node) : branchBridged uncond table none nodes =
    insertGotosBack (nodes.map (Node.bridged uncond table)) (gaps uncond table 0 none nodes) :=
  append_branchBridged [] none

theorem branchLinked_eq_map (nodes : List Node) :
    branchLinked uncond succs nodes = nodes.map (Node.linked uncond succs) := by
  induction nodes with
  | nil => rfl
  | cons n rest ih => rw [branchLinked, ih, map_cons]

/-- The branch has at most one gap, and `succs` shows the same gaps as `table`. -/
def SameGaps (uncond : List Int) (succs table : Edges) (nodes : List Node) : Prop :=
  gaps uncond succs 0 none nodes = gaps uncond table 0 none nodes ∧
    (gaps uncond table 0 none nodes).length ≤ 1

include h in
/-- When a branch gets the gotos that belong into it. -/
theorem relinked_eq_branchBridged_iff :
    relinked uncond succs nodes = branchBridged uncond table none nodes ↔
      SameGaps uncond succs table nodes ∧
        branchLinked uncond succs nodes = nodes.map (Node.bridged uncond table) := by
  rw [relinked, branchBridged_eq]
  refine insertGotos_eq_back_iff (gaps_sublist h) ?_ gaps_sorted ?_ ?_
  · rw [branchLinked_eq_map, length_map, length_map]
  · rw [length_map]
    exact le_length_of_mem_gaps
  · intro e he target hgoto
    obtain ⟨b, hb⟩ := block_of_mem_gaps he
    rw [List.getElem?_map, hb] at hgoto
    cases hgoto

mutual

theorem Node.linked_eq_bridged_iff (h : ∀ a, succs.contains a = true → table.contains a = true)
    (rest : List Node) (outer : List Around) :
    ∀ n : Node, n.linked uncond succs = n.bridged uncond table ↔
      ∀ s ∈ n.sites rest outer, SameGaps uncond succs table s.nodes
  | .ifElse jump expected place next other slot fused => by
    have hnext := branchLinked_eq_bridged_iff h (.fork rest :: outer) next
    have hother := branchLinked_eq_bridged_iff h (.fork rest :: outer) other
    rw [Node.sites, forall_mem_append, forall_mem_cons, forall_mem_cons, ← hnext, ← hother,
      ← relinked_eq_branchBridged_iff h, ← relinked_eq_branchBridged_iff h, Node.linked,
        Node.bridged]
    simp only [Node.ifElse.injEq, true_and, and_true]
    rfl
  | .loop endless place body => by
    have hbody := branchLinked_eq_bridged_iff h (.loop body rest :: outer) body
    rw [Node.sites, forall_mem_cons, ← hbody, ← relinked_eq_branchBridged_iff h, Node.linked,
      Node.bridged]
    simp only [Node.loop.injEq, true_and]
    rfl
  | .block _ | .goto _ _ | .comment _ | .ifGoto .. | .andIf .. | .ifCond .. =>
    iff_of_true rfl (forall_mem_nil _)

theorem branchLinked_eq_bridged_iff (h : ∀ a, succs.contains a = true → table.contains a = true)
    (outer : List Around) :
    ∀ nodes : List Node, branchLinked uncond succs nodes = nodes.map (Node.bridged uncond table) ↔
      ∀ s ∈ sitesIn outer nodes, SameGaps uncond succs table s.nodes
  | [] => iff_of_true rfl (forall_mem_nil _)
  | n :: rest => by
    rw [branchLinked, map_cons, cons.injEq, sitesIn, forall_mem_append,
      n.linked_eq_bridged_iff h rest outer, branchLinked_eq_bridged_iff h outer rest]

end

include h in
/-- When all branches of a tree get the gotos that belong into them. -/
theorem relinked_eq_bridged_iff (tree : List Node) :
    relinked uncond succs tree = branchBridged uncond table none tree ↔
      ∀ s ∈ sites tree, SameGaps uncond succs table s.nodes := by
  rw [relinked_eq_branchBridged_iff h, branchLinked_eq_bridged_iff h [], sites, forall_mem_cons]

end

/-! ## Blocks that run on -/

namespace Graph

/-- The successors of a node, under the addresses of all its instructions. -/
def onward (g : Graph) : Edges :=
  ⟨(g.nodes.entries.filter fun e => g.succs.contains e.1).flatMap fun e => e.2.map fun i =>
    (i.addr, g.next e.1)⟩

variable {g : Graph}

/-- A block runs on if the node that holds its last instruction has successors. -/
theorem onward_contains_iff :
    g.onward.contains a = true ↔ ∃ e ∈ g.nodes.entries, g.succs.contains e.1 = true ∧
      ∃ i ∈ e.2, i.addr = a := by
  rw [OrdMap.contains_iff, OrdMap.keys, onward]
  simp only [map_flatMap, mem_flatMap, mem_filter, map_map, mem_map, Function.comp_apply]
  constructor
  · rintro ⟨e, ⟨he, hsuccs⟩, i, hi, rfl⟩
    exact ⟨e, he, hsuccs, i, hi, rfl⟩
  · rintro ⟨e, he, hsuccs, i, hi, rfl⟩
    exact ⟨e, ⟨he, hsuccs⟩, i, hi, rfl⟩

/-- Successors are listed under the addresses of the first instructions of nodes. -/
def ByHeads (g : Graph) : Prop :=
  ∀ a ∈ g.succs.keys, ∃ i rest, g.nodes.get? a = some (i :: rest) ∧ i.addr = a

theorem WellFormed.byHeads (h : g.WellFormed) : g.ByHeads := by
  intro a ha
  obtain ⟨l, hl⟩ := OrdMap.mem_keys.mp ha
  obtain ⟨insns, hnode⟩ := OrdMap.mem_keys.mp (h.succs a l hl).1
  obtain ⟨i, rest, rfl, haddr⟩ := h.heads a insns hnode
  exact ⟨i, rest, hnode, haddr⟩

theorem ByHeads.onward (h : g.ByHeads) (ha : g.succs.contains a = true) :
    g.onward.contains a = true := by
  obtain ⟨i, rest, hnode, haddr⟩ := h a (OrdMap.contains_iff.mp ha)
  exact onward_contains_iff.mpr ⟨(a, i :: rest), OrdMap.mem_entries_of_get? hnode, ha, i,
    .head _, haddr⟩

end Graph

/-- Putting gotos between blocks, for every tree and graph. The pass goes through exactly if it can
ask all neighbouring blocks. Then the gotos of each branch stand at the positions that their gaps
had before, and without them the branch is as it was. If successors are listed under the first
addresses of nodes, then the gotos are those that belong into the tree, where they belong, exactly
if every branch has at most one gap and it is behind a block whose last instruction is listed. -/
theorem linkBlocks_places (g : Graph) (tree : List Node) :
    ((linkBlocks g.uncondJumps g.succs tree).fault = none ↔
      ∀ s ∈ sites tree, s.nodes.IsChain (Linkable g.uncondJumps g.succs)) ∧
    ((linkBlocks g.uncondJumps g.succs tree).fault = none →
      (linkBlocks g.uncondJumps g.succs tree).value = relinked g.uncondJumps g.succs tree ∧
      (∀ s ∈ sites tree,
        (∀ e ∈ gaps g.uncondJumps g.succs 0 none s.nodes,
          (relinked g.uncondJumps g.succs s.nodes)[e.1]? = some (.goto e.2 false)) ∧
        (gaps g.uncondJumps g.succs 0 none s.nodes).foldr (fun e nodes => nodes.eraseIdx e.1)
          (relinked g.uncondJumps g.succs s.nodes) =
      s.nodes.map (Node.linked g.uncondJumps g.succs)) ∧ (g.ByHeads →
        ((linkBlocks g.uncondJumps g.succs tree).value =
          branchBridged g.uncondJumps g.onward none tree ↔
          ∀ s ∈ sites tree, SameGaps g.uncondJumps g.succs g.onward s.nodes))) := by
  have hgives : (linkBlocks g.uncondJumps g.succs tree).Gives _ _ := linkBlocks_gives tree
  obtain ⟨hfault, hvalue⟩ := hgives
  refine ⟨hfault, fun hnone => ?_⟩
  rw [hvalue (hfault.mp hnone)]
  refine ⟨rfl, fun s _ => ⟨?_, ?_⟩, fun hheads =>
    relinked_eq_bridged_iff (fun a => hheads.onward) tree⟩
  · refine getElem?_insertGotos gaps_sorted fun e he => ?_
    rw [branchLinked_eq_map, length_map]
    exact le_length_of_mem_gaps e he
  · rw [relinked, eraseIdx_insertGotos, branchLinked_eq_map]

/-- A block of one-byte instructions that run on. -/
def runBlock (addrs : List Int) : Node := .block (addrs.map fun a => .insn (OneByte.run.insn a))

/-- A graph of such blocks, with their successors. -/
def runGraph (nodes succs : List (Int × List Int)) : Graph where
  entry := 0
  nodes := ⟨nodes.map fun e => (e.1, e.2.map OneByte.run.insn)⟩
  succs := ⟨succs⟩
  preds := ∅
  condJumps := []
  uncondJumps := []

/-- A loop with one gap in its body. -/
theorem linkBlocks_places_loop :
    let g := runGraph [(0, [0]), (4, [4])] [(0, [1])]
    let tree := [Node.loop true 0 [runBlock [0], runBlock [4]]]
    (linkBlocks g.uncondJumps g.succs tree).fault = none ∧
    (linkBlocks g.uncondJumps g.succs tree).value = branchBridged g.uncondJumps g.onward none tree ∧
    branchBridged g.uncondJumps g.onward none tree =
      [.loop true 0 [runBlock [0], .goto 1 false, runBlock [4]]] := by
  intro g tree
  have hnone : (linkBlocks g.uncondJumps g.succs tree).fault = none := rfl
  have hheads : g.ByHeads := by
    intro a ha
    obtain rfl := mem_singleton.mp ha
    exact ⟨OneByte.run.insn 0, [], rfl, rfl⟩
  obtain ⟨-, -, hbridged⟩ := (linkBlocks_places g tree).2 hnone
  refine ⟨hnone, (hbridged hheads).mpr ?_, rfl⟩
  have hsites : (sites tree).map Site.nodes = [tree, [runBlock [0], runBlock [4]]] := rfl
  rw [← forall_mem_map, hsites, forall_mem_cons, forall_mem_singleton]
  exact ⟨⟨rfl, by decide⟩, rfl, by decide⟩

/-- In a branch with two gaps the second goto stands in front of the block that it should stand
behind, and a gap behind a block of two instructions is not seen. -/
theorem linkBlocks_misplaces :
    let g := runGraph [(0, [0]), (2, [2]), (4, [4])] [(0, [1]), (2, [3])]
    let g' := runGraph [(0, [0, 1]), (4, [4])] [(0, [2])]
    (linkBlocks g.uncondJumps g.succs [runBlock [0], runBlock [2], runBlock [4]] =
      .done [runBlock [0], .goto 1 false, .goto 3 false, runBlock [2], runBlock [4]] ∧
    branchBridged g.uncondJumps g.onward none [runBlock [0], runBlock [2], runBlock [4]] =
      [runBlock [0], .goto 1 false, runBlock [2], .goto 3 false, runBlock [4]]) ∧
    linkBlocks g'.uncondJumps g'.succs [runBlock [0, 1], runBlock [4]] =
      .done [runBlock [0, 1], runBlock [4]] ∧
    branchBridged g'.uncondJumps g'.onward none [runBlock [0, 1], runBlock [4]] =
      [runBlock [0, 1], .goto 2 false, runBlock [4]] :=
  ⟨⟨rfl, rfl⟩, rfl, rfl⟩

end Decompiler
