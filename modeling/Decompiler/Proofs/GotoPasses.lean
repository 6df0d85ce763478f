import Decompiler.Proofs.DraftNodes
import Decompiler.Proofs.GotoDrops
/-!
# When the passes over gotos go through

Putting gotos between blocks never fails, and dropping gotos fails for one cause: a branch ends in a
goto, and the code that follows the branch is a loop that does not begin with a block, so that it
cannot be asked where it starts (`bringGotosInLine_ok_iff`).
-/

namespace Decompiler

open List

variable {tree : List Node} {previous : Option (List Item)} {C : Prop}

/-! ## Trees read off from a draft -/

mutual

/-- A node as it is read off from a draft: it stands for a node of the graph, and a construct at
position `k` has recorded where it is. -/
def Node.AsDrafted (g : Graph) (k : Nat) : Node → Prop
  | .block items =>
    ∃ a i rest, items = (i :: rest).map Item.insn ∧ g.nodes.get? a = some (i :: rest) ∧
    (g.next a).length ≤ 1
  | .ifElse jump _ place next other _ _ =>
    (∃ x y, g.next jump.addr = [x, y]) ∧ place = k ∧ branchAsDrafted g 0 next ∧
      branchAsDrafted g 0 other
  | .loop _ place body => place = k ∧ branchAsDrafted g 0 body
  | .ifGoto jump _ target _ _ =>
    ∃ other, g.next jump.addr = [target, other] ∨ g.next jump.addr = [other, target]
  | .andIf jump _ expected _ _ =>
    ∃ other, g.next jump.addr = [expected, other] ∨ g.next jump.addr = [other, expected]
  | .goto _ _ => True
  | .comment _ => False
  | .ifCond .. => False

/-- The nodes of a branch from position `k` on are as they are read off from a draft. -/
def branchAsDrafted (g : Graph) (k : Nat) : List Node → Prop
  | [] => True
  | n :: rest => n.AsDrafted g k ∧ branchAsDrafted g (k + 1) rest

end

variable {g : Graph}

theorem branchAsDrafted_append (l l' : List Node) : ∀ k, branchAsDrafted g k (l ++ l') ↔
    branchAsDrafted g k l ∧ branchAsDrafted g (k + l.length) l' := by
  induction l with
  | nil => intro k; simp [branchAsDrafted]
  | cons n l ih =>
    intro k
    have hk : k + (n :: l).length = k + 1 + l.length := by rw [length_cons]; omega
    rw [cons_append, branchAsDrafted, branchAsDrafted, ih, hk, and_assoc]

theorem branchAsDrafted_of_getElem? {l : List Node} : ∀ {k : Nat},
    (∀ (i : Nat) n, l[i]? = some n → n.AsDrafted g (k + i)) → branchAsDrafted g k l := by
  induction l with
  | nil => intro k _; trivial
  | cons n l ih =>
    intro k h
    refine ⟨h 0 n rfl, ih fun i m hm => ?_⟩
    have hm' := h (i + 1) m hm
    rwa [← Nat.add_assoc, Nat.add_right_comm] at hm'

variable {n : Node} {k : Nat} {nodes : List Node} {items b b' : List Item}

theorem branchAsDrafted.of_mem {l : List Node} : ∀ {k : Nat}, branchAsDrafted g k l → n ∈ l →
    ∃ i, n.AsDrafted g i := by
  induction l with
  | nil => intro k _ hn; cases hn
  | cons m l ih =>
    intro k h hn
    rcases mem_cons.mp hn with rfl | hn
    · exact ⟨k, h.1⟩
    · exact ih h.2 hn

/-- The tree that is read off from a fitting draft. -/
theorem Draft.Fits.asDrafted {d : Draft} (hg : g.WellFormed) (h : d.Fits g) :
    ∀ fuel b, branchAsDrafted g 0 (d.tree fuel b) := by
  intro fuel
  induction fuel with
  | zero => intro b; trivial
  | succ fuel ih =>
    intro b
    refine branchAsDrafted_of_getElem? fun k n hn => ?_
    rw [Nat.zero_add]
    rw [Draft.tree, List.getElem?_map] at hn
    obtain ⟨m, hm, rfl⟩ := Option.map_eq_some_iff.mp hn
    obtain ⟨hof, hat⟩ := h b k m hm
    cases m with
    | block insns =>
      obtain ⟨a, hnode, hlen⟩ := hof
      obtain ⟨i, rest, rfl, -⟩ := hg.heads a insns hnode
      exact ⟨a, i, rest, rfl, hnode, hlen⟩
    | ifElse jump expected next other slot =>
      exact ⟨hof, (hat next (by simp [DraftNode.refs])).place_eq, ih next, ih other⟩
    | loop endless body => exact ⟨(hat body (by simp [DraftNode.refs])).place_eq, ih body⟩
    | goto target => trivial
    | ifGoto | andIf => exact hof

/-! ## The code that follows -/

/-- A loop that does not begin with a block. It cannot be asked where it starts. -/
def Node.Mute : Node → Prop
  | .loop _ _ body => ∀ items rest, body ≠ .block items :: rest
  | _ => False

theorem Node.hasStart_iff (h : n.AsDrafted g k) : n.HasStart ↔ ¬ n.Mute := by
  cases n with
  | block items =>
    obtain ⟨_, i, rest, rfl, -⟩ := h
    exact iff_of_true rfl id
  | loop endless place body =>
    cases body with
    | nil => exact iff_of_false id fun hm => hm fun items rest heq => by cases heq
    | cons m rest =>
      cases m with
      | block items =>
        obtain ⟨_, i, l, rfl, -⟩ := h.2.1
        exact iff_of_true (.inr rfl) fun hm => hm _ _ rfl
      | goto | comment | ifGoto | andIf | ifCond | ifElse | loop =>
        exact iff_of_false id fun hm => hm fun items rest' heq => by cases heq
  | goto | ifGoto | andIf | ifElse => exact iff_of_true trivial id
  | comment | ifCond => exact h.elim

/-- The rests of branches that are as drafted. -/
def RestsAsDrafted (g : Graph) (rests : List (List Node)) : Prop :=
  ∀ rest ∈ rests, ∃ k, branchAsDrafted g k rest

/-! ## Dropping gotos -/

/-- If a branch ends in a goto that may be dropped, then the code behind the branch can be asked
where it starts. -/
def EndsClear (rests : List (List Node)) (nodes : List Node) : Prop :=
  ∀ target n, nodes.getLast? = some (.goto target false) → following rests = some n → ¬ n.Mute

mutual

/-- All branches inside a node end clear; `rests` is the code behind the node, and behind each
construct around it. -/
def Node.Clear (rests : List (List Node)) : Node → Prop
  | .ifElse _ _ _ next other _ _ =>
    (EndsClear rests next ∧ branchClear rests next) ∧ EndsClear rests other ∧
      branchClear rests other
  | .loop _ _ body => EndsClear rests body ∧ branchClear rests body
  | _ => True

/-- All branches inside the nodes of a branch end clear. -/
def branchClear (outer : List (List Node)) : List Node → Prop
  | [] => True
  | n :: rest => n.Clear (rest :: outer) ∧ branchClear outer rest

end

theorem Site.answered_iff {s : Site} (h : RestsAsDrafted g s.rests) :
    s.Answered ↔ EndsClear s.rests s.nodes := by
  refine forall₄_congr fun target n _ hn => ?_
  obtain ⟨rest, hrest, hmem⟩ := (exists_mem_of_following hn).1
  obtain ⟨k, hk⟩ := h rest hrest
  obtain ⟨i, hi⟩ := hk.of_mem hmem
  exact Node.hasStart_iff hi

theorem RestsAsDrafted.cons {rest : List Node} {outer : List (List Node)}
    (hrest : branchAsDrafted g k rest) (houter : RestsAsDrafted g outer) :
    RestsAsDrafted g (rest :: outer) :=
  forall_mem_cons.mpr ⟨⟨k, hrest⟩, houter⟩

mutual

theorem Node.answered_iff_clear {rest : List Node} {outer : List Around}
    (h : RestsAsDrafted g (rest :: outer.map Around.rest)) {k : Nat} : ∀ n : Node, n.AsDrafted g k →
      ((∀ s ∈ n.sites rest outer, s.Answered) ↔ n.Clear (rest :: outer.map Around.rest))
  | .ifElse jump expected place next other slot fused => by
    rintro ⟨-, -, hnext, hother⟩
    rw [Node.sites, forall_mem_append, forall_mem_cons, forall_mem_cons]
    exact and_congr (and_congr (Site.answered_iff h)
      (answered_iff_branchClear (.fork rest :: outer) h next hnext))
      (and_congr (Site.answered_iff h) (answered_iff_branchClear (.fork rest :: outer) h other
        hother))
  | .loop endless place body => by
    rintro ⟨-, hbody⟩
    rw [Node.sites, forall_mem_cons]
    exact and_congr (Site.answered_iff h)
      (answered_iff_branchClear (.loop body rest :: outer) h body hbody)
  | .block _ | .goto _ _ | .comment _ | .ifGoto .. | .andIf .. | .ifCond .. => fun _ =>
    iff_of_true (forall_mem_nil _) trivial

theorem answered_iff_branchClear (outer : List Around)
    (h : RestsAsDrafted g (outer.map Around.rest)) {k : Nat} :
    ∀ nodes : List Node, branchAsDrafted g k nodes →
      ((∀ s ∈ sitesIn outer nodes, s.Answered) ↔ branchClear (outer.map Around.rest) nodes)
  | [] => fun _ => iff_of_true (forall_mem_nil _) trivial
  | n :: rest => by
    rintro ⟨hn, hrest⟩
    rw [sitesIn, forall_mem_append]
    exact and_congr (n.answered_iff_clear (.cons hrest h) hn)
      (answered_iff_branchClear outer h rest hrest)

end

mutual

theorem Node.AsDrafted.inPlace {k : Nat} : ∀ {n : Node}, n.AsDrafted g k → n.InPlace k
  | .ifElse .. => by
    rintro ⟨-, hplace, hnext, hother⟩
    exact ⟨hplace, branchAsDrafted.inPlace hnext, branchAsDrafted.inPlace hother⟩
  | .loop .. => by
    rintro ⟨hplace, hbody⟩
    exact ⟨hplace, branchAsDrafted.inPlace hbody⟩
  | .block _ | .goto _ _ | .comment _ | .ifGoto .. | .andIf .. | .ifCond .. => fun _ => trivial

theorem branchAsDrafted.inPlace {k : Nat} :
    ∀ {nodes : List Node}, branchAsDrafted g k nodes → branchInPlace k nodes
  | [] => fun _ => trivial
  | n :: rest => by
    rintro ⟨hn, hrest⟩
    exact ⟨hn.inPlace, branchAsDrafted.inPlace hrest⟩

end

/-- Dropping gotos goes through exactly if all branches end clear. -/
theorem dropNeedlessGotos_fault (h : branchAsDrafted g 0 tree) :
    (dropNeedlessGotos tree).fault = none ↔ branchClear [] tree := by
  have hrests : RestsAsDrafted g [] := forall_mem_nil _
  have hroot : Site.Answered ⟨[], tree⟩ := fun target n _ hn => by cases hn
  rw [(dropNeedlessGotos_gives h.inPlace).1, sites, forall_mem_cons, and_iff_right hroot]
  exact answered_iff_branchClear [] hrests tree h

theorem LosesGoto.asDrafted {l l' : List Node} (h : LosesGoto l l') :
    ∀ {k : Nat}, branchAsDrafted g k l → branchAsDrafted g k l' := by
  induction h with
  | last front target => exact fun h => ((branchAsDrafted_append _ _ _).mp h).1
  | inside front rest hole _ ih =>
    intro k h
    rw [branchAsDrafted_append] at h ⊢
    refine h.imp_right (And.imp_left ?_)
    cases hole with
    | next => exact And.imp_right (And.imp_right (And.imp_left ih))
    | other => exact And.imp_right (And.imp_right (And.imp_right ih))
    | body => exact And.imp_right ih

theorem asDrafted_dropNeedlessGotos (h : branchAsDrafted g 0 tree) :
    branchAsDrafted g 0 (dropNeedlessGotos tree).value :=
  dropNeedlessGotos_keeps h fun _ _ hstep => hstep.asDrafted

/-! ## Gotos after a further condition -/

theorem asDrafted_append_gotoDue {nodes' : List Node} (h : branchAsDrafted g k nodes') :
    branchAsDrafted g k (nodes' ++ gotoDue nodes) := by
  refine (branchAsDrafted_append _ _ _).mpr ⟨h, ?_⟩
  unfold gotoDue
  split
  · exact ⟨trivial, trivial⟩
  · trivial

mutual

theorem Node.asDrafted_finishConditions {k : Nat} :
    ∀ n : Node, n.AsDrafted g k → n.finishConditions.AsDrafted g k
  | .ifElse .. => fun ⟨hjump, hplace, hnext, hother⟩ =>
    ⟨hjump, hplace, asDrafted_append_gotoDue (asDrafted_branchFinishConditions _ hnext),
      asDrafted_append_gotoDue (asDrafted_branchFinishConditions _ hother)⟩
  | .loop .. => fun ⟨hplace, hbody⟩ =>
    ⟨hplace, asDrafted_append_gotoDue (asDrafted_branchFinishConditions _ hbody)⟩
  | .block _ | .goto _ _ | .comment _ | .ifGoto .. | .andIf .. | .ifCond .. => fun h => h

theorem asDrafted_branchFinishConditions {k : Nat} :
    ∀ nodes : List Node, branchAsDrafted g k nodes →
      branchAsDrafted g k (branchFinishConditions nodes)
  | [] => fun _ => trivial
  | n :: rest =>
    fun ⟨hn, hrest⟩ => ⟨n.asDrafted_finishConditions hn,
      asDrafted_branchFinishConditions rest hrest⟩

end

theorem asDrafted_finishConditions (h : branchAsDrafted g 0 tree) :
    branchAsDrafted g 0 (finishConditions tree) :=
  asDrafted_append_gotoDue (asDrafted_branchFinishConditions tree h)

/-! ## Gotos between blocks -/

/-- Where a block runs on to, if that is not the block behind it. -/
def gap? (uncond : List Int) (succs : Edges) (items items' : List Item) : Option Int := do
  let i ← items.getLast?.bind Item.insn?
  let j ← items'.head?.bind Item.insn?
  if i.addr ∉ uncond && succs.contains i.addr && i.next ≠ j.addr then some i.next else none

/-- The gaps in a branch from position `k` on, with their positions; `previous` is the block right
in front. -/
def gaps (uncond : List Int) (succs : Edges) :
    (k : Nat) → (previous : Option (List Item)) → List Node → List (Nat × Int)
  | _, _, [] => []
  | k, previous, n :: rest =>
    ((previous.bind fun p => n.items?.bind (gap? uncond succs p)).map fun a => (k, a)).toList ++
      gaps uncond succs (k + 1) n.items? rest

mutual

/-- A node with gotos put into the gaps inside it. -/
def Node.linked (uncond : List Int) (succs : Edges) : Node → Node
  | .ifElse jump expected place next other slot fused =>
    .ifElse jump expected place (insertGotos (branchLinked uncond succs next)
      (gaps uncond succs 0 none next))
      (insertGotos (branchLinked uncond succs other) (gaps uncond succs 0 none other)) slot fused
  | .loop endless place body =>
    .loop endless place (insertGotos (branchLinked uncond succs body)
      (gaps uncond succs 0 none body))
  | n => n

/-- The nodes of a branch with gotos put into the gaps inside them. -/
def branchLinked (uncond : List Int) (succs : Edges) : List Node → List Node
  | [] => []
  | n :: rest => n.linked uncond succs :: branchLinked uncond succs rest

end

variable {uncond : List Int} {succs : Edges}

theorem runsOnTo_eq {i : Insn} (hi : items.getLast? = some (Item.insn i)) :
    runsOnTo uncond succs items =
      .ok (if i.addr ∉ uncond ∧ succs.contains i.addr = true then some i.next else none) := by
  simp [runsOnTo, lastItem, hi, bind, Except.bind, pure, Except.pure]

/-- What the pass asks of two neighbours, if they are blocks: the first ends in an instruction and,
if that runs on, the second begins with one. -/
def Linkable (uncond : List Int) (succs : Edges) (m n : Node) : Prop :=
  ∀ b b', m.items? = some b → n.items? = some b' → ∃ i, b.getLast? = some (Item.insn i) ∧
    (i.addr ∉ uncond → succs.contains i.addr = true → ∃ j, b'.head? = some (Item.insn j))

theorem linkable_of_items? {m : Node} (h : n.items? = none) : Linkable uncond succs m n := by
  intro b b' _ hb'
  rw [h] at hb'
  cases hb'

theorem linkable_block :
    Linkable uncond succs (.block b) (.block b') ↔ ∃ i, b.getLast? = some (Item.insn i) ∧
      (i.addr ∉ uncond → succs.contains i.addr = true → ∃ j, b'.head? = some (Item.insn j)) := by
  constructor
  · intro h
    exact h b b' rfl rfl
  · rintro h c c' hc hc'
    obtain rfl := Option.some.inj hc
    obtain rfl := Option.some.inj hc'
    exact h

theorem gotoBefore_of_linkable (h : Linkable uncond succs (.block b) (.block b')) :
    gotoBefore uncond succs (some b) b' = .ok (gap? uncond succs b b') := by
  obtain ⟨i, hi, hfirst⟩ := linkable_block.mp h
  have hruns : runsOnTo uncond succs b = _ := runsOnTo_eq hi
  by_cases hon : i.addr ∉ uncond ∧ succs.contains i.addr = true
  · obtain ⟨j, hj⟩ := hfirst hon.1 hon.2
    have hfirstItem : firstItem b' = .ok (Item.insn j) := by rw [firstItem, hj]
    rw [if_pos hon] at hruns
    simp only [gotoBefore, hruns, hfirstItem, bind, Except.bind, Item.addr, pure, Except.pure]
    simp [gap?, hi, hj, hon, Item.insn?]
  · have hgap : gap? uncond succs b b' = none := by
      simp only [gap?, hi, Option.bind_eq_bind, Option.bind_some, Item.insn?]
      cases b'.head?.bind Item.insn? with
      | none => rfl
      | some j => simp [hon]
    rw [if_neg hon] at hruns
    simp only [gotoBefore, hruns, hgap, bind, Except.bind, pure, Except.pure]

theorem linkable_of_gotoBefore {goto? : Option Int}
    (h : gotoBefore uncond succs (some b) b' = .ok goto?) :
    Linkable uncond succs (.block b) (.block b') := by
  -- The question has an answer, so each of its steps had one.
  obtain ⟨next?, hruns, hrest⟩ := Except.bind_eq_ok.mp h
  obtain ⟨item, hlast, hitem⟩ := Except.bind_eq_ok.mp hruns
  have hb : b.getLast? = some item := by
    unfold lastItem at hlast
    cases hget : b.getLast? with
    | none => rw [hget] at hlast; cases hlast
    | some x => rw [hget] at hlast; exact congrArg some (Except.ok.inj hlast)
  cases item with
  | gap | pseudo => cases hitem
  | insn i =>
    refine linkable_block.mpr ⟨i, hb, fun huncond hsuccs => ?_⟩
    have hnext : next? = some i.next := by
      simpa [huncond, hsuccs, pure, Except.pure] using hitem.symm
    subst hnext
    obtain ⟨first, hfirst, haddr⟩ := Except.bind_eq_ok.mp hrest
    obtain ⟨addr, hisInsn, -⟩ := Except.bind_eq_ok.mp haddr
    unfold firstItem at hfirst
    cases hget : b'.head? with
    | none => rw [hget] at hfirst; cases hfirst
    | some x =>
      rw [hget] at hfirst
      obtain rfl := Except.ok.inj hfirst
      cases x with
      | gap | pseudo => cases hisInsn
      | insn j => exact ⟨j, rfl⟩

/-- Asking for the goto in front of a block and then going on. -/
theorem gives_of_gotoBefore {α : Type} {a : α} {stop : Fault → Edited α}
    {go : Option Int → Edited α} (hstop : ∀ e, (stop e).fault ≠ none)
    (hgo : (go (previous.bind fun p => gap? uncond succs p items)).Gives C a) :
    (match gotoBefore uncond succs previous items with
      | .error e => stop e
      | .ok goto? => go goto?).Gives
      ((∀ p, previous = some p → Linkable uncond succs (.block p) (.block items)) ∧ C) a := by
  cases previous with
  | none => exact hgo.congr (iff_and_self.mpr fun _ p hp => by cases hp)
  | some p =>
    by_cases hlink : Linkable uncond succs (.block p) (.block items)
    · rw [gotoBefore_of_linkable hlink]
      exact hgo.congr (iff_and_self.mpr fun _ q hq => Option.some.inj hq ▸ hlink)
    · cases hasked : gotoBefore uncond succs (some p) items with
      | ok goto? => exact absurd (linkable_of_gotoBefore hasked) hlink
      | error e =>
        have hnot : ¬ ((∀ q, some p = some q → Linkable uncond succs (.block q) (.block items)) ∧
            C) := fun h =>
          hlink (h.1 p rfl)
        exact ⟨iff_of_false (hstop e) hnot, fun h => absurd h hnot⟩

/-- The neighbours in a branch are looked at one after the other; `previous` is the block right in
front. -/
theorem isChain_linkable_cons {rest : List Node} :
    ((previous.map Node.block).toList ++ n :: rest).IsChain (Linkable uncond succs) ↔
      (∀ p, previous = some p → Linkable uncond succs (.block p) n) ∧
        ((n.items?.map Node.block).toList ++ rest).IsChain (Linkable uncond succs) := by
  have htail : (n :: rest).IsChain (Linkable uncond succs) ↔
      ((n.items?.map Node.block).toList ++ rest).IsChain (Linkable uncond succs) := by
    cases hi : n.items? with
    | some items => rw [eq_block_of_items? hi]; rfl
    | none =>
      cases rest with
      | nil => exact iff_of_true (.singleton _) .nil
      | cons m rest =>
        refine isChain_cons_cons.trans (and_iff_right fun b b' hb => ?_)
        rw [hi] at hb
        cases hb
  rw [← htail]
  cases previous with
  | none => exact (and_iff_right fun p hp => by cases hp).symm
  | some p =>
    refine isChain_cons_cons.trans (and_congr_left fun _ => ?_)
    exact ⟨fun h q hq => Option.some.inj hq ▸ h, fun h => h p rfl⟩

/-- A branch with gotos put into its gaps and into those inside its nodes. -/
def relinked (uncond : List Int) (succs : Edges) (nodes : List Node) : List Node :=
  insertGotos (branchLinked uncond succs nodes) (gaps uncond succs 0 none nodes)

theorem linkBlocks_gives_of
    (h : (branchLinkBlocks uncond succs 0 none nodes).Gives C (branchLinked uncond succs nodes,
      gaps uncond succs 0 none nodes)) :
    (linkBlocks uncond succs nodes).Gives C (relinked uncond succs nodes) := by
  have heq : linkBlocks uncond succs nodes = (branchLinkBlocks uncond succs 0 none nodes).andThen
      (fun r => r.1) fun r => .done (insertGotos r.1 r.2) := rfl
  rw [heq]
  refine Edited.Gives.congr (C := C ∧ True) (h.andThen ?_) (and_iff_left trivial)
  exact .done

theorem linkBlocks_ifElse (jump : Insn) (expected place : Int) (next other : List Node)
    (slot fused : Option Insn) :
    (Node.ifElse jump expected place next other slot fused).linkBlocks uncond succs =
      (linkBlocks uncond succs next).andThen (fun next =>
        .ifElse jump expected place next other slot fused) fun next =>
        (linkBlocks uncond succs other).map fun other =>
          .ifElse jump expected place next other slot fused := by
  unfold Node.linkBlocks linkBlocks
  generalize branchLinkBlocks uncond succs 0 none next = linked
  generalize branchLinkBlocks uncond succs 0 none other = linked'
  obtain ⟨value, _ | e⟩ := linked
  · obtain ⟨value', _ | e⟩ := linked' <;> rfl
  · rfl

theorem linkBlocks_loop (endless : Bool) (place : Int) (body : List Node) :
    (Node.loop endless place body).linkBlocks uncond succs =
      (linkBlocks uncond succs body).map (.loop endless place) := by
  unfold Node.linkBlocks linkBlocks
  generalize branchLinkBlocks uncond succs 0 none body = linked
  obtain ⟨value, _ | e⟩ := linked <;> rfl

mutual

/-- What putting gotos into a node gives. -/
theorem Node.linkBlocks_gives (rest : List Node) (outer : List Around) : ∀ n : Node,
    (n.linkBlocks uncond succs).Gives (∀ s ∈ n.sites rest outer,
      s.nodes.IsChain (Linkable uncond succs)) (n.linked uncond succs)
  | .ifElse jump expected place next other slot fused => by
    have hnext := linkBlocks_gives_of (branchLinkBlocks_gives (.fork rest :: outer) 0 none next)
    have hother := linkBlocks_gives_of (branchLinkBlocks_gives (.fork rest :: outer) 0 none other)
    rw [linkBlocks_ifElse]
    refine (hnext.andThen (hother.map _)).congr ?_
    rw [Node.sites, forall_mem_append, forall_mem_cons, forall_mem_cons]
    rfl
  | .loop endless place body => by
    have hbody := linkBlocks_gives_of (branchLinkBlocks_gives (.loop body rest :: outer) 0
      none body)
    rw [linkBlocks_loop]
    refine (hbody.map (Node.loop endless place)).congr ?_
    rw [Node.sites, forall_mem_cons]
    rfl
  | .block _ | .goto _ _ | .comment _ | .ifGoto .. | .andIf .. | .ifCond .. =>
    Edited.Gives.done.congr (iff_of_true trivial (forall_mem_nil _))

/-- What putting gotos into the nodes of a branch gives, and the gotos that are to be put into the
branch itself. -/
theorem branchLinkBlocks_gives (outer : List Around) (k : Nat) (previous : Option (List Item)) :
    ∀ nodes : List Node,
    (branchLinkBlocks uncond succs k previous nodes).Gives
      (((previous.map Node.block).toList ++ nodes).IsChain (Linkable uncond succs) ∧
        ∀ s ∈ sitesIn outer nodes, s.nodes.IsChain (Linkable uncond succs))
      (branchLinked uncond succs nodes, gaps uncond succs k previous nodes)
  | [] => by
    refine Edited.Gives.done.congr (iff_of_true trivial ⟨?_, forall_mem_nil _⟩)
    cases previous with
    | none => exact .nil
    | some p => exact .singleton _
  | n :: rest => by
    rw [isChain_linkable_cons, sitesIn, forall_mem_append, branchLinked, gaps]
    cases hi : n.items? with
    | none =>
      have hgap : (previous.bind fun p => (none : Option (List Item)).bind (gap? uncond succs p)) =
          none := by
        cases previous <;> rfl
      rw [branchLinkBlocks_cons _ _ _ _ hi, hgap]
      refine ((n.linkBlocks_gives rest outer).andThen
        ((branchLinkBlocks_gives outer (k + 1) none rest).map _)).congr ?_
      rw [and_iff_right fun p _ => linkable_of_items? hi]
      exact and_left_comm
    | some items =>
      -- Only here the block in front is looked at.
      obtain rfl := eq_block_of_items? hi
      unfold branchLinkBlocks
      refine (gives_of_gotoBefore (fun e he => by cases he)
        ((branchLinkBlocks_gives outer (k + 1) (some items) rest).map _)).congr ?_
      have hsites : (Node.block items).sites rest outer = [] := rfl
      rw [and_assoc, hsites, and_iff_right (forall_mem_nil _)]

end

/-- What the pass gives, for every tree. -/
theorem linkBlocks_gives (tree : List Node) : (linkBlocks uncond succs tree).Gives
    (∀ s ∈ sites tree, s.nodes.IsChain (Linkable uncond succs)) (relinked uncond succs tree) := by
  refine (linkBlocks_gives_of (branchLinkBlocks_gives [] 0 none tree)).congr ?_
  rw [sites, forall_mem_cons]
  rfl

/-! ### On drafted trees -/

/-- The instructions of a block: the first and the last of them. -/
theorem Node.AsDrafted.ends (h : (Node.block items).AsDrafted g k) :
    (∃ j, items.head? = some (Item.insn j)) ∧ ∃ i, items.getLast? = some (Item.insn i) := by
  obtain ⟨-, i, rest, rfl, -⟩ := h
  refine ⟨⟨i, rfl⟩, (i :: rest).getLast (cons_ne_nil _ _), ?_⟩
  rw [List.getLast?_map, List.getLast?_eq_some_getLast (cons_ne_nil i rest)]
  rfl

theorem isChain_linkable_of_asDrafted : ∀ {k : Nat}, branchAsDrafted g k nodes →
    nodes.IsChain (Linkable uncond succs) := by
  induction nodes with
  | nil => exact fun _ => .nil
  | cons n rest ih =>
    intro k ⟨hn, hrest⟩
    refine isChain_cons.mpr ⟨fun m hm b b' hb hb' => ?_, ih hrest⟩
    obtain rfl := eq_block_of_items? hb
    obtain rfl := eq_block_of_items? hb'
    obtain ⟨k', hm⟩ := hrest.of_mem (mem_of_mem_head? hm)
    obtain ⟨i, hi⟩ := hn.ends.2
    exact ⟨i, hi, fun _ _ => hm.ends.1⟩

mutual

theorem Node.AsDrafted.sites (rest : List Node) (outer : List Around) {k : Nat} :
    ∀ {n : Node}, n.AsDrafted g k → ∀ s ∈ n.sites rest outer, ∃ i, branchAsDrafted g i s.nodes
  | .ifElse .., ⟨_, _, hnext, hother⟩ => by
    rw [Node.sites, forall_mem_append, forall_mem_cons, forall_mem_cons]
    exact ⟨⟨⟨0, hnext⟩, branchAsDrafted.sitesIn _ hnext⟩, ⟨0, hother⟩,
      branchAsDrafted.sitesIn _ hother⟩
  | .loop .., ⟨_, hbody⟩ => by
    rw [Node.sites, forall_mem_cons]
    exact ⟨⟨0, hbody⟩, branchAsDrafted.sitesIn _ hbody⟩
  | .block _, _ | .goto _ _, _ | .comment _, _ | .ifGoto .., _ | .andIf .., _ | .ifCond .., _ =>
    forall_mem_nil _

theorem branchAsDrafted.sitesIn (outer : List Around) {k : Nat} :
    ∀ {nodes : List Node}, branchAsDrafted g k nodes →
    ∀ s ∈ sitesIn outer nodes, ∃ i, branchAsDrafted g i s.nodes
  | [], _ => forall_mem_nil _
  | _ :: rest, ⟨hn, hrest⟩ =>
    forall_mem_append.mpr ⟨hn.sites rest outer, branchAsDrafted.sitesIn outer hrest⟩

end

/-- Putting gotos between blocks goes through. -/
theorem linkBlocks_eq (h : branchAsDrafted g 0 tree) :
    linkBlocks uncond succs tree = .done (relinked uncond succs tree) := by
  have hgives : (linkBlocks uncond succs tree).Gives _ _ := linkBlocks_gives tree
  have hlink : ∀ s ∈ sites tree, s.nodes.IsChain (Linkable uncond succs) := by
    refine forall_mem_cons.mpr ⟨isChain_linkable_of_asDrafted h, fun s hs => ?_⟩
    obtain ⟨k, hk⟩ := h.sitesIn [] s hs
    exact isChain_linkable_of_asDrafted hk
  exact hgives.eq_done hlink

/-- What the passes over gotos give, if gotos can be dropped. -/
theorem bringGotosInLine_eq (h : branchAsDrafted g 0 tree)
    (hfault : (dropNeedlessGotos tree).fault = none) :
    bringGotosInLine uncond succs tree =
      .ok (relinked uncond succs (finishConditions (dropNeedlessGotos tree).value)) := by
  have hdrop : (dropNeedlessGotos tree).result = .ok (dropNeedlessGotos tree).value := by
    rw [Edited.result, hfault]
  rw [bringGotosInLine, hdrop]
  simp only [bind, Except.bind]
  rw [linkBlocks_eq (asDrafted_finishConditions (asDrafted_dropNeedlessGotos h))]
  rfl

/-- The passes over gotos go through exactly if all branches of the tree end clear. -/
theorem bringGotosInLine_ok_iff (h : branchAsDrafted g 0 tree) :
    (∃ tree', bringGotosInLine uncond succs tree = .ok tree') ↔ branchClear [] tree := by
  rw [← dropNeedlessGotos_fault h]
  constructor
  · rintro ⟨tree', htree⟩
    obtain ⟨dropped, hdrop, -⟩ := Except.bind_eq_ok.mp htree
    exact (Edited.result_eq_ok hdrop).1
  · intro hfault
    exact ⟨_, bringGotosInLine_eq h hfault⟩

end Decompiler
