import Decompiler.Proofs.BlockEnds
import Decompiler.Proofs.GotoPasses
/-!
# Where structured code goes on

Read as code, a tree says for each of its blocks and jumps where control goes next (`branchFlow`). A
direct jump without a condition goes to its target, any other block to what stands behind it, and
what stands behind the last node of a branch is what stands behind the construct around it; at the
end of a loop that is the start of the loop again.

If control gets to the targets of all dropped gotos without them, the code goes on as before
(`branchFlow_trimmed`). In code without loops this is so (`dropNeedlessGotos_flow`). If such code
goes the ways of the graph, no block has to be followed by a goto, and the passes over gotos change
nothing else (`bringGotosInLine_flow`).
-/

namespace Decompiler

open List

/-! ## Reading a tree -/

/-- Where the block that starts with an instruction goes: to where its last instruction jumps,
nowhere if it has no successor in the graph, and otherwise to what is behind it. -/
def Graph.exits (g : Graph) (first : Insn) (items : List Item) (after : Option Int) : List Int :=
  match (items.getLast?.bind Item.insn?).bind Insn.jumpsTo? with
  | some target => [target]
  | none => if g.succs.contains first.addr then after.toList else []

mutual

/-- Where control gets that comes to a node with `after` behind it. -/
def Node.start (after : Option Int) : Node → Option Int
  | .block items => (items.head?.bind Item.insn?).map (·.addr)
  | .goto target _ => some target
  | .comment _ => after
  | .ifGoto jump _ _ _ _ => some jump.addr
  | .andIf jump _ _ _ _ => some jump.addr
  | .ifElse jump _ _ _ _ _ _ => some jump.addr
  | .ifCond _ body _ => branchStart after body
  | .loop _ _ body => branchStart none body

/-- Where control gets that comes to a branch with `after` behind it. -/
def branchStart (after : Option Int) : List Node → Option Int
  | [] => after
  | n :: rest => n.start (branchStart after rest)

end

mutual

/-- The blocks and jumps in a node with `after` behind it, each with the addresses it goes to. -/
def Node.flow (g : Graph) (after : Option Int) : Node → List (Int × List Int)
  | .block items =>
    (items.head?.bind Item.insn?).toList.map fun i => (i.addr, g.exits i items after)
  | .ifElse jump _ _ next other _ _ =>
    (jump.addr, (branchStart after next).toList ++ (branchStart after other).toList) ::
      (branchFlow g after next ++ branchFlow g after other)
  | .ifGoto jump _ target _ _ => [(jump.addr, target :: after.toList)]
  | .andIf jump _ _ _ _ => [(jump.addr, after.toList)]
  | .loop _ _ body => branchFlow g (branchStart none body) body
  | .ifCond _ body _ => branchFlow g after body
  | .goto _ _ => []
  | .comment _ => []

/-- The blocks and jumps in a branch with `after` behind it, each with the addresses it goes to. -/
def branchFlow (g : Graph) (after : Option Int) : List Node → List (Int × List Int)
  | [] => []
  | n :: rest => n.flow g (branchStart after rest) ++ branchFlow g after rest

end

variable {g : Graph} {after : Option Int}

mutual

theorem Node.flow_keys : ∀ (n : Node) (after : Option Int), (n.flow g after).map Prod.fst = n.keys
  | .block _, _ => by simp [Node.flow, Node.keys, Function.comp_def]
  | .ifElse _ _ _ next other _ _, after => by
    simp [Node.flow, Node.keys, branchFlow_keys next after, branchFlow_keys other after]
  | .loop _ _ body, _ => by simp [Node.flow, Node.keys, branchFlow_keys body]
  | .ifCond _ body _, after => by simp [Node.flow, Node.keys, branchFlow_keys body after]
  | .ifGoto .., _ | .andIf .., _ | .goto _ _, _ | .comment _, _ => by simp [Node.flow, Node.keys]

/-- What goes on somewhere is the code of the branch. -/
theorem branchFlow_keys : ∀ (nodes : List Node) (after : Option Int),
    (branchFlow g after nodes).map Prod.fst = treeKeys nodes
  | [], _ => by simp [branchFlow, treeKeys]
  | n :: rest, after => by simp [branchFlow, treeKeys, n.flow_keys, branchFlow_keys rest after]

end

/-- The entries of a branch are those of its nodes, each read with the nodes behind it. -/
theorem mem_branchFlow {e : Int × List Int} : ∀ {nodes : List Node}, e ∈ branchFlow g after nodes ↔
    ∃ (k : Nat) (n : Node), nodes[k]? = some n ∧
      e ∈ n.flow g (branchStart after (nodes.drop (k + 1))) := by
  intro nodes
  induction nodes with
  | nil => simp [branchFlow]
  | cons n rest ih =>
    rw [branchFlow, mem_append, ih]
    constructor
    · rintro (h | ⟨k, m, hm, h⟩)
      · exact ⟨0, n, rfl, h⟩
      · exact ⟨k + 1, m, hm, h⟩
    · rintro ⟨k, m, hm, h⟩
      cases k with
      | zero =>
        obtain rfl : n = m := Option.some.inj hm
        exact .inl h
      | succ k => exact .inr ⟨k, m, hm, h⟩

/-! ## Trees without needless gotos -/

/-- Where control gets that falls off a branch. -/
def fallsTo : List Around → Option Int
  | [] => none
  | .fork rest :: outer => branchStart (fallsTo outer) rest
  | .loop body _ :: _ => branchStart none body

/-- Whether a branch is the body of a loop. -/
def Site.isBody (s : Site) : Bool :=
  match s.around with
  | .loop _ _ :: _ => true
  | _ => false

/-- If the branch loses its last goto, that led to where control gets without it. At the end of a
loop that could be the goto itself, so no goto is lost there. -/
def Site.Right (s : Site) : Prop :=
  ∀ target, s.Drops target → fallsTo s.around = some target ∧ s.isBody = false

theorem Site.Drops.cons {around : List Around} {n : Node} {rest : List Node} {target : Int}
    (h : Site.Drops ⟨around, rest⟩ target) : Site.Drops ⟨around, n :: rest⟩ target := by
  refine ⟨?_, h.2⟩
  have hne : rest ≠ [] := by
    rintro rfl
    cases h.1
  exact (List.getLast?_cons_of_ne_nil hne).trans h.1

mutual

/-- A node without needless gotos starts where it did. -/
theorem Node.start_trimmed {rest : List Node} {outer : List Around} : ∀ n : Node,
    (∀ s ∈ n.sites rest outer, s.Right) → ∀ after,
      (n.trimmed (rest :: outer.map Around.rest)).start after = n.start after
  | .loop endless place body => by
    intro h after
    rw [Node.sites, forall_mem_cons] at h
    refine branchStart_trimmed (.loop body rest :: outer) body h.2 none fun target hdrops => ?_
    have hbody := (h.1 target hdrops).2
    cases hbody
  | .block _ | .goto _ _ | .comment _ | .ifGoto .. | .andIf .. | .ifCond .. | .ifElse .. =>
    fun _ _ => rfl

/-- A branch without needless gotos starts where it did. -/
theorem branchStart_trimmed (outer : List Around) :
    ∀ nodes : List Node, (∀ s ∈ sitesIn outer nodes, s.Right) →
    ∀ after, (∀ target, Site.Drops ⟨outer, nodes⟩ target → after = some target) →
      branchStart after (branchTrimmed (outer.map Around.rest) nodes) = branchStart after nodes
  | [] => fun _ _ _ => rfl
  | n :: rest => by
    intro h after hafter
    rw [sitesIn, forall_mem_append] at h
    rw [branchTrimmed]
    by_cases hdrop : (rest.isEmpty && n.needless (outer.map Around.rest)) = true
    · obtain ⟨hempty, hneed⟩ := Bool.and_eq_true_iff.mp hdrop
      obtain rfl := List.isEmpty_iff.mp hempty
      obtain ⟨target, rfl, hstarts⟩ := Node.needless_iff.mp hneed
      rw [if_pos hdrop]
      exact hafter target ⟨rfl, hstarts⟩
    · rw [if_neg hdrop, branchStart, branchStart, n.start_trimmed h.1,
        branchStart_trimmed outer rest h.2 after fun target hd => hafter target hd.cons]

end

variable {nodes tree : List Node} {k : Nat}

theorem Site.Right.start_trimmed {outer : List Around} (hright : Site.Right ⟨outer, nodes⟩)
    (h : ∀ s ∈ sitesIn outer nodes, s.Right) :
    branchStart (fallsTo outer) (branchTrimmed (outer.map Around.rest) nodes) =
      branchStart (fallsTo outer) nodes :=
  branchStart_trimmed outer nodes h _ fun target hd => (hright target hd).1

mutual

/-- The code in a node without needless gotos goes on as before. -/
theorem Node.flow_trimmed {rest : List Node} {outer : List Around} : ∀ n : Node,
    (∀ s ∈ n.sites rest outer, s.Right) →
      (n.trimmed (rest :: outer.map Around.rest)).flow g (branchStart (fallsTo outer) rest) =
        n.flow g (branchStart (fallsTo outer) rest)
  | .ifElse jump expected place next other slot fused => by
    intro h
    rw [Node.sites, forall_mem_append, forall_mem_cons, forall_mem_cons] at h
    obtain ⟨⟨hnext, hnext'⟩, hother, hother'⟩ := h
    have hstart := hnext.start_trimmed hnext'
    have hstart' := hother.start_trimmed hother'
    have hflow := branchFlow_trimmed (.fork rest :: outer) next hnext' hnext
    have hflow' := branchFlow_trimmed (.fork rest :: outer) other hother' hother
    simp only [fallsTo, map_cons, Around.rest] at hstart hstart' hflow hflow'
    simp only [Node.trimmed, Node.flow, hstart, hstart', hflow, hflow']
  | .loop endless place body => by
    intro h
    have hstart := Node.start_trimmed (.loop endless place body) h none
    rw [Node.sites, forall_mem_cons] at h
    have hflow := branchFlow_trimmed (.loop body rest :: outer) body h.2 h.1
    simp only [Node.trimmed, Node.start] at hstart
    simp only [fallsTo, map_cons, Around.rest] at hflow
    simp only [Node.trimmed, Node.flow, hstart, hflow]
  | .block _ | .goto _ _ | .comment _ | .ifGoto .. | .andIf .. | .ifCond .. => fun _ => rfl

/-- The code in a branch without needless gotos goes on as before. -/
theorem branchFlow_trimmed (outer : List Around) :
    ∀ nodes : List Node, (∀ s ∈ sitesIn outer nodes, s.Right) → Site.Right ⟨outer, nodes⟩ →
      branchFlow g (fallsTo outer) (branchTrimmed (outer.map Around.rest) nodes) =
        branchFlow g (fallsTo outer) nodes
  | [] => fun _ _ => rfl
  | n :: rest => by
    intro h hright
    rw [sitesIn, forall_mem_append] at h
    have hrest : Site.Right ⟨outer, rest⟩ := fun target hd => hright target hd.cons
    rw [branchTrimmed]
    by_cases hdrop : (rest.isEmpty && n.needless (outer.map Around.rest)) = true
    · obtain ⟨hempty, hneed⟩ := Bool.and_eq_true_iff.mp hdrop
      obtain rfl := List.isEmpty_iff.mp hempty
      obtain ⟨target, rfl, -⟩ := Node.needless_iff.mp hneed
      rw [if_pos hdrop]
      rfl
    · rw [if_neg hdrop, branchFlow, branchFlow, hrest.start_trimmed h.2, n.flow_trimmed h.1,
        branchFlow_trimmed outer rest h.2 hrest]

end

/-! ## Code without loops -/

mutual

/-- A node of code without loops: a block, a goto to an address that stands for code, or a branch in
two. -/
def Node.Loopless : Node → Prop
  | .block _ => True
  | .goto target keep => target ≠ noAddr ∧ keep = false
  | .ifElse _ _ _ next other _ _ => branchLoopless next ∧ branchLoopless other
  | .comment _ | .ifGoto .. | .andIf .. | .ifCond .. | .loop .. => False

/-- A branch of code without loops. -/
def branchLoopless : List Node → Prop
  | [] => True
  | n :: rest => n.Loopless ∧ branchLoopless rest

end

theorem branchLoopless_iff : branchLoopless nodes ↔ ∀ n ∈ nodes, n.Loopless := by
  induction nodes with
  | nil => simp [branchLoopless]
  | cons n rest ih => rw [branchLoopless, ih, forall_mem_cons]

/-- Such a node starts where it says, whatever is behind it. -/
theorem Node.start_of_loopless {n : Node} (hd : n.AsDrafted g k) (hl : n.Loopless) :
    ∃ a, (∀ after, n.start after = some a) ∧ n.firstAddr = .ok a ∧ n.isPassedOver = false := by
  cases n with
  | block items =>
    obtain ⟨-, i, rest, rfl, -⟩ := hd
    exact ⟨i.addr, fun _ => rfl, rfl, rfl⟩
  | goto target keep => exact ⟨target, fun _ => rfl, rfl, rfl⟩
  | ifElse jump => exact ⟨jump.addr, fun _ => rfl, rfl, rfl⟩
  | comment | ifGoto | andIf | ifCond | loop => exact hl.elim

/-- What is looked up as the start of the code behind a branch is where control gets that falls off
it. -/
theorem startsAt_of_loopless {rest : List Node} {outer : List (List Node)}
    (hd : branchAsDrafted g k rest) (hl : branchLoopless rest)
    (h : startsAt outer = .ok (after.getD noAddr)) :
    startsAt (rest :: outer) = .ok ((branchStart after rest).getD noAddr) := by
  rw [startsAt_cons]
  cases rest with
  | nil => exact h
  | cons n rest =>
    obtain ⟨a, hstart, hfirst, hpassed⟩ := n.start_of_loopless hd.1 hl.1
    rw [List.find?_cons_of_pos (by simp [hpassed])]
    simp only [hfirst, branchStart, hstart, Option.getD_some]

/-! ## Dropping gotos -/

/-- A branch of code without loops, in code without loops: what is looked up behind it is where
control gets that falls off it. -/
structure Site.Loopless (s : Site) : Prop where
  starts : startsAt s.rests = .ok ((fallsTo s.around).getD noAddr)
  nodes : branchLoopless s.nodes
  isBody : s.isBody = false

theorem Site.Loopless.answered {s : Site} (h : s.Loopless) : s.Answered :=
  fun _ n _ hn => startsAt_ok_iff.mp ⟨_, h.starts⟩ n hn

theorem Site.Loopless.right {s : Site} (h : s.Loopless) : s.Right := by
  rintro target ⟨hlast, hstarts⟩
  refine ⟨?_, h.isBody⟩
  have hne : target ≠ noAddr := (branchLoopless_iff.mp h.nodes _ (mem_of_getLast? hlast)).1
  rw [h.starts] at hstarts
  have htarget := Except.ok.inj hstarts
  cases hfalls : fallsTo s.around with
  | none =>
    -- With no code behind the branch the address that is found stands for no code, and no goto
    -- leads there.
    rw [hfalls] at htarget
    exact absurd htarget.symm hne
  | some a =>
    rw [hfalls] at htarget
    exact congrArg some htarget

mutual

theorem Node.loopless_of_mem_sites {rest : List Node} {outer : List Around} {k : Nat}
    (hstarts : startsAt (rest :: outer.map Around.rest) =
      .ok ((branchStart (fallsTo outer) rest).getD noAddr)) :
    ∀ n : Node, n.AsDrafted g k → n.Loopless → ∀ s ∈ n.sites rest outer, s.Loopless
  | .ifElse jump expected place next other slot fused => by
    rintro ⟨-, -, hdnext, hdother⟩ ⟨hnext, hother⟩
    rw [Node.sites, forall_mem_append, forall_mem_cons, forall_mem_cons]
    exact ⟨⟨⟨hstarts, hnext, rfl⟩, loopless_of_mem_sitesIn (.fork rest :: outer) hstarts next
      hdnext hnext⟩,
      ⟨hstarts, hother, rfl⟩, loopless_of_mem_sitesIn (.fork rest :: outer) hstarts other
        hdother hother⟩
  | .block _ | .goto _ _ => fun _ _ => forall_mem_nil _
  | .comment _ | .ifGoto .. | .andIf .. | .ifCond .. | .loop .. => fun _ hl => hl.elim

theorem loopless_of_mem_sitesIn (outer : List Around)
    (houter : startsAt (outer.map Around.rest) = .ok ((fallsTo outer).getD noAddr)) {k : Nat} :
    ∀ nodes : List Node, branchAsDrafted g k nodes → branchLoopless nodes →
      ∀ s ∈ sitesIn outer nodes, s.Loopless
  | [] => fun _ _ => forall_mem_nil _
  | n :: rest => by
    rintro ⟨hdn, hdrest⟩ ⟨hn, hrest⟩
    rw [sitesIn, forall_mem_append]
    exact ⟨n.loopless_of_mem_sites (startsAt_of_loopless hdrest hrest houter) hdn hn,
      loopless_of_mem_sitesIn outer houter rest hdrest hrest⟩

end

/-- All branches of code without loops are such. -/
theorem loopless_of_mem_sites (hd : branchAsDrafted g 0 tree) (hl : branchLoopless tree) :
    ∀ s ∈ sites tree, s.Loopless := by
  rw [sites, forall_mem_cons]
  exact ⟨⟨rfl, hl, rfl⟩, loopless_of_mem_sitesIn [] rfl tree hd hl⟩

theorem LosesGoto.loopless {l l' : List Node} (h : LosesGoto l l') :
    branchLoopless l → branchLoopless l' := by
  induction h with
  | last front target =>
    rw [branchLoopless_iff, branchLoopless_iff]
    exact fun h n hn => h n (mem_append_left _ hn)
  | inside front rest hole _ ih =>
    simp only [branchLoopless_iff, forall_mem_append, forall_mem_cons]
    refine And.imp_right (And.imp_left ?_)
    cases hole with
    | next => exact And.imp_left ih
    | other => exact And.imp_right ih
    | body => exact id

/-- Dropping needless gotos leaves where the code goes on. -/
theorem dropNeedlessGotos_flow (hd : branchAsDrafted g 0 tree) (hl : branchLoopless tree) :
    ∃ tree', dropNeedlessGotos tree = .done tree' ∧ branchAsDrafted g 0 tree' ∧
      branchLoopless tree' ∧ branchFlow g none tree' = branchFlow g none tree := by
  have hsites := loopless_of_mem_sites hd hl
  have heq : dropNeedlessGotos tree = .done (branchTrimmed [] tree) :=
    (dropNeedlessGotos_gives hd.inPlace).eq_done fun s hs => (hsites s hs).answered
  have hvalue : (dropNeedlessGotos tree).value = branchTrimmed [] tree := by rw [heq]; rfl
  refine ⟨branchTrimmed [] tree, heq, hvalue ▸ asDrafted_dropNeedlessGotos hd,
    hvalue ▸ dropNeedlessGotos_keeps hl fun _ _ hstep => hstep.loopless, ?_⟩
  · rw [sites, forall_mem_cons] at hsites
    exact branchFlow_trimmed [] tree (fun s hs => (hsites.2 s hs).right) hsites.1.right

/-! ## Putting gotos in -/

theorem gotoDue_of_loopless (h : branchLoopless nodes) : gotoDue nodes = [] := by
  unfold gotoDue
  split
  · rename_i hlast
    exact (branchLoopless_iff.mp h _ (mem_of_getLast? hlast)).elim
  · rfl

mutual

theorem Node.finishConditions_of_loopless : ∀ n : Node, n.Loopless → n.finishConditions = n
  | .ifElse _ _ _ next other _ _ => fun ⟨hnext, hother⟩ => by
    simp only [Node.finishConditions, branchFinishConditions_of_loopless next hnext,
      branchFinishConditions_of_loopless other hother, gotoDue_of_loopless hnext,
      gotoDue_of_loopless hother, append_nil]
  | .block _ | .goto _ _ => fun _ => rfl
  | .comment _ | .ifGoto .. | .andIf .. | .ifCond .. | .loop .. => fun h => h.elim

theorem branchFinishConditions_of_loopless : ∀ nodes : List Node, branchLoopless nodes →
    branchFinishConditions nodes = nodes
  | [] => fun _ => rfl
  | n :: rest => fun ⟨hn, hrest⟩ => by
    rw [branchFinishConditions, n.finishConditions_of_loopless hn,
      branchFinishConditions_of_loopless rest hrest]

end

/-- The code goes the ways of the graph: every block and jump to its successors. -/
def GoesAlong (g : Graph) (flow : List (Int × List Int)) : Prop :=
  ∀ e ∈ flow, ∀ b, b ∈ e.2 ↔ g.Edge e.1 b

theorem goesAlong_append {l l' : List (Int × List Int)} :
    GoesAlong g (l ++ l') ↔ GoesAlong g l ∧ GoesAlong g l' := by
  simp only [GoesAlong, mem_append, or_imp, forall_and]

/-- Each block of the graph ends as its last instruction does. -/
def EndsAsWritten (g : Graph) : Prop :=
  ∀ a l i, g.nodes.get? a = some l → l.getLast? = some i → g.Ending a i

/-- Between a block and the block it goes on to there is no gap. -/
theorem gap?_eq_none (hg : g.WellFormed) (hends : EndsAsWritten g) {items items' : List Item}
    {k' : Nat} (hd : (Node.block items).AsDrafted g k) (hd' : (Node.block items').AsDrafted g k')
    (hflow : GoesAlong g ((Node.block items).flow g ((Node.block items').start none))) :
    gap? g.uncondJumps g.succs items items' = none := by
  obtain ⟨a, first, rest, rfl, hnode, hlen⟩ := hd
  obtain ⟨-, j, rest', rfl, -⟩ := hd'
  obtain ⟨first', rest'', hcons, haddr⟩ := hg.heads a _ hnode
  obtain ⟨rfl, rfl⟩ := cons.inj hcons
  obtain ⟨i, hi⟩ : ∃ i, (first :: rest).getLast? = some i :=
    ⟨_, List.getLast?_eq_some_getLast (cons_ne_nil _ _)⟩
  have hlast : ((first :: rest).map Item.insn).getLast?.bind Item.insn? = some i := by
    rw [List.getLast?_map, hi]
    rfl
  have hfirst : ((j :: rest').map Item.insn).head?.bind Item.insn? = some j := rfl
  simp only [gap?, hlast, hfirst, bind, Option.bind_some]
  refine if_neg fun hgap => ?_
  obtain ⟨⟨hcond, hkey⟩, hne⟩ := by simpa using hgap
  cases hends a _ i hnode hi with
  | jumps v _ hlisted => exact hcond hlisted
  | stops _ hunknown => exact hunknown (OrdMap.contains_iff.mp hkey)
  | branches x y hnext => simp [hnext] at hlen
  | runsOn hnext _ htarget =>
    -- The block goes on to what is behind it, and its successor is the next instruction.
    have hsucc : g.succs.contains first.addr = true := by
      rw [OrdMap.contains_iff, haddr]
      by_contra hnot
      rw [Graph.next, OrdMap.getD_of_not_mem hnot] at hnext
      cases hnext
    have hexits : g.exits first ((first :: rest).map Item.insn) (some j.addr) = [j.addr] := by
      simp only [Graph.exits, hlast, Option.bind_some, htarget, hsucc, if_true, Option.toList_some]
    have hedge : g.Edge first.addr j.addr := by
      refine (hflow (first.addr, [j.addr]) ?_ j.addr).mp (.head _)
      rw [← hexits]
      exact mem_singleton.mpr rfl
    rw [Graph.Edge, haddr, hnext, mem_singleton] at hedge
    exact hne hedge.symm

mutual

/-- Inside a node whose code goes the ways of the graph there are no gaps. -/
theorem Node.linked_of_loopless (hg : g.WellFormed) (hends : EndsAsWritten g) {k : Nat}
    {after : Option Int} :
    ∀ n : Node, n.AsDrafted g k → n.Loopless → GoesAlong g (n.flow g after) →
      n.linked g.uncondJumps g.succs = n
  | .ifElse jump expected place next other slot fused => by
    rintro ⟨-, -, hdnext, hdother⟩ ⟨hnext, hother⟩ hflow
    obtain ⟨-, hflow⟩ := (goesAlong_append (l := [_])).mp hflow
    obtain ⟨hflow, hflow'⟩ := goesAlong_append.mp hflow
    obtain ⟨hlinked, hgaps⟩ := branchLinked_of_loopless hg hends 0 none next hdnext hnext hflow
      fun items h => by cases h
    obtain ⟨hlinked', hgaps'⟩ :=
      branchLinked_of_loopless hg hends 0 none other hdother hother hflow' fun items h => by cases h
    simp only [Node.linked, hlinked, hgaps, hlinked', hgaps', insertGotos, foldl_nil]
  | .block _ | .goto _ _ => fun _ _ _ => rfl
  | .comment _ | .ifGoto .. | .andIf .. | .ifCond .. | .loop .. => fun _ h => h.elim

/-- In a branch whose code goes the ways of the graph there are no gaps. -/
theorem branchLinked_of_loopless (hg : g.WellFormed) (hends : EndsAsWritten g) {i : Nat}
    {after : Option Int} (k : Nat) (previous : Option (List Item)) :
    ∀ nodes : List Node, branchAsDrafted g i nodes → branchLoopless nodes →
      GoesAlong g (branchFlow g after nodes) →
      (∀ items, previous = some items → (∃ k', (Node.block items).AsDrafted g k') ∧
        GoesAlong g ((Node.block items).flow g (branchStart after nodes))) →
      branchLinked g.uncondJumps g.succs nodes = nodes ∧
        gaps g.uncondJumps g.succs k previous nodes = []
  | [] => fun _ _ _ _ => ⟨rfl, rfl⟩
  | n :: rest => by
    rintro ⟨hdn, hdrest⟩ ⟨hn, hrest⟩ hflow hprevious
    obtain ⟨hflow, hflow'⟩ := goesAlong_append.mp hflow
    obtain ⟨hlinked, hgaps⟩ :=
      branchLinked_of_loopless hg hends (k + 1) n.items? rest hdrest hrest hflow' fun items hi => by
        obtain rfl := eq_block_of_items? hi
        exact ⟨⟨_, hdn⟩, hflow⟩
    refine ⟨by rw [branchLinked, n.linked_of_loopless hg hends hdn hn hflow, hlinked], ?_⟩
    rw [gaps, hgaps, append_nil]
    cases previous with
    | none => rfl
    | some items =>
      cases hi : n.items? with
      | none => rfl
      | some items' =>
        obtain rfl := eq_block_of_items? hi
        obtain ⟨⟨k', hd'⟩, hgoes⟩ := hprevious items rfl
        simp only [Option.bind_some, gap?_eq_none hg hends hd' hdn hgoes, Option.map_none,
          Option.toList_none]

end

/-- If code without loops goes the ways of the graph, the passes over gotos give code that goes the
same ways. -/
theorem bringGotosInLine_flow (hg : g.WellFormed) (hends : EndsAsWritten g)
    (hd : branchAsDrafted g 0 tree) (hl : branchLoopless tree)
    (hflow : GoesAlong g (branchFlow g none tree)) :
    ∃ tree', bringGotosInLine g.uncondJumps g.succs tree = .ok tree' ∧
      branchFlow g none tree' = branchFlow g none tree := by
  obtain ⟨tree', hdrop, hd', hl', hsame⟩ := dropNeedlessGotos_flow hd hl
  refine ⟨tree', ?_, hsame⟩
  have hfinish : finishConditions tree' = tree' := by
    rw [finishConditions, branchFinishConditions_of_loopless tree' hl', gotoDue_of_loopless hl',
      append_nil]
  obtain ⟨hlinked, hgaps⟩ := branchLinked_of_loopless hg hends 0 none tree' hd' hl' (hsame ▸ hflow)
    fun items h => by cases h
  have hvalue : (dropNeedlessGotos tree).value = tree' := by rw [hdrop]; rfl
  rw [bringGotosInLine_eq hd (by rw [hdrop]; rfl), hvalue, hfinish, relinked, hlinked, hgaps]
  rfl

end Decompiler
