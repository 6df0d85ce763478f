import Decompiler.Proofs.Fusions
import Decompiler.Proofs.GotoDrops
/-!
# Groups of conditional instructions

A block is cut into runs: they make up the block, none is empty, the instructions of a run have one
condition, and neighbouring runs have different ones (`Runs`). Each run becomes a node, so reading a
branch gives the instructions it gave before (`branchSingles`), and the instructions of a run stand
under their condition, or under none if they always take effect (`Rightly`). A block of one run is
left as it is, though, whatever its condition. So all instructions of a tree stand under their
condition exactly if no block has one and the same condition throughout, other than `AL`.
-/

namespace Decompiler

open List

variable {α β : Type} {rs : List (String × List Item)}

/-! ## Reading a tree -/

mutual

/-- The blocks in a node that are not in a conditional group. -/
def Node.openBlocks : Node → List (List Item)
  | .block items => [items]
  | .ifElse _ _ _ next other _ _ => branchOpenBlocks next ++ branchOpenBlocks other
  | .loop _ _ body => branchOpenBlocks body
  | _ => []

/-- The blocks in a branch that are not in a conditional group. -/
def branchOpenBlocks : List Node → List (List Item)
  | [] => []
  | n :: rest => n.openBlocks ++ branchOpenBlocks rest

end

mutual

/-- A node as it is read: a block one item at a time, whether it is in a conditional group or
not. -/
def Node.singles : Node → List Node
  | .block items => items.map fun item => .block [item]
  | .ifCond _ body _ => branchSingles body
  | .ifElse jump expected place next other slot fused =>
    [.ifElse jump expected place (branchSingles next) (branchSingles other) slot fused]
  | .loop endless place body => [.loop endless place (branchSingles body)]
  | n => [n]

/-- A branch as it is read. -/
def branchSingles : List Node → List Node
  | [] => []
  | n :: rest => n.singles ++ branchSingles rest

end

theorem branchSingles_append (l l' : List Node) :
    branchSingles (l ++ l') = branchSingles l ++ branchSingles l' := by
  induction l with
  | nil => rfl
  | cons n rest ih => simp [branchSingles, ih]

/-- An item of a block, and the conditions of the groups around it, the innermost first. -/
structure GuardedItem where
  conds : List (Option String)
  item : Item

mutual

/-- The items in a node; `conds` are the conditions of the groups around it. -/
def Node.guardedItems (conds : List (Option String)) : Node → List GuardedItem
  | .block items => items.map fun item => ⟨conds, item⟩
  | .ifCond c body _ => branchGuardedItems (c :: conds) body
  | .ifElse _ _ _ next other _ _ => branchGuardedItems conds next ++ branchGuardedItems conds other
  | .loop _ _ body => branchGuardedItems conds body
  | _ => []

/-- The items in a branch. -/
def branchGuardedItems (conds : List (Option String)) : List Node → List GuardedItem
  | [] => []
  | n :: rest => n.guardedItems conds ++ branchGuardedItems conds rest

end

theorem branchGuardedItems_append (conds : List (Option String)) (l l' : List Node) :
    branchGuardedItems conds (l ++ l') = branchGuardedItems conds l ++
      branchGuardedItems conds l' := by
  induction l with
  | nil => rfl
  | cons n rest ih => simp [branchGuardedItems, ih]

variable {e : GuardedItem}

mutual

/-- The conditions around a node are around what is in it. -/
theorem Node.suffix_of_mem_guardedItems {conds : List (Option String)} :
    ∀ n : Node, e ∈ n.guardedItems conds → conds <:+ e.conds
  | .block items => by
    intro h
    obtain ⟨item, -, rfl⟩ := mem_map.mp h
    exact suffix_refl _
  | .ifCond c body _ =>
    fun h => (suffix_cons c conds).trans (suffix_of_mem_branchGuardedItems body h)
  | .ifElse _ _ _ next other _ _ => by
    intro h
    rcases mem_append.mp h with h | h
    · exact suffix_of_mem_branchGuardedItems next h
    · exact suffix_of_mem_branchGuardedItems other h
  | .loop _ _ body => suffix_of_mem_branchGuardedItems body
  | .goto _ _ | .comment _ | .ifGoto .. | .andIf .. => fun h => by cases h

theorem suffix_of_mem_branchGuardedItems {conds : List (Option String)} :
    ∀ nodes : List Node, e ∈ branchGuardedItems conds nodes → conds <:+ e.conds
  | [] => fun h => by cases h
  | n :: rest => by
    intro h
    rcases mem_append.mp h with h | h
    · exact n.suffix_of_mem_guardedItems h
    · exact suffix_of_mem_branchGuardedItems rest h

end

theorem Edited.map_andThen {γ : Type} (e : Edited α) (rest : α → β) (next : α → Edited β)
    (f : β → γ) :
    (e.andThen rest next).map f = e.andThen (fun a => f (rest a)) fun a => (next a).map f := by
  unfold Edited.andThen
  cases e.fault <;> rfl

/-- Going on with a part of the outcome. -/
theorem Edited.Gives.andThen_snd {C D : Prop} {e : Edited (α × α)} {a : α} {b : β}
    {rest : α × α → β} {next : α × α → Edited β} (h : (e.map Prod.snd).Gives C a)
    (hnext : ∀ r, r.2 = a → (next r).Gives D b) : (e.andThen rest next).Gives (C ∧ D) b := by
  have hfault : (e.andThen rest next).fault = none ↔ C ∧ D := by
    rw [Edited.andThen_fault, ← Edited.map_fault Prod.snd, h.1]
    exact and_congr_right fun hc => (hnext e.value (h.2 hc)).1
  refine ⟨hfault, fun hcd => ?_⟩
  rw [(Edited.andThen_done (hfault.mpr hcd)).2]
  exact (hnext e.value (h.2 hcd.1)).2 hcd.2

namespace Arm

/-! ## Runs -/

/-- Runs of equal conditions that make up a block. -/
structure Runs (items : List Item) (rs : List (String × List Item)) : Prop where
  together : rs.flatMap Prod.snd = items
  nonempty : ∀ r ∈ rs, r.2 ≠ []
  uniform : ∀ r ∈ rs, ∀ item ∈ r.2, conditionOf item = .ok r.1
  differ : rs.IsChain fun r r' => r.1 ≠ r'.1

/-- A block that can be cut into runs: it holds instructions, and nothing but instructions. -/
def Whole (items : List Item) : Prop := items ≠ [] ∧ ∀ item ∈ items, item.insn?.isSome

/-- All items of a block have the same condition. -/
def Uniform (c : String) (items : List Item) : Prop := ∀ item ∈ items, conditionOf item = .ok c

theorem conditionOf_ok_iff {item : Item} : (∃ c, conditionOf item = .ok c) ↔ item.insn?.isSome := by
  cases item with
  | insn i => exact iff_of_true ⟨i.condition, rfl⟩ rfl
  | gap | pseudo => exact iff_of_false (by rintro ⟨c, h⟩; cases h) (by simp [Item.insn?])

/-- Cutting up the rest of a block, with the current run in front. -/
theorem runsFrom_spec :
    ∀ (items : List Item) (c : String) (run : List Item) (rs : List (String × List Item)),
    runsFrom c run items = .ok rs → run ≠ [] → Uniform c run →
    Runs (run.reverse ++ items) rs ∧ rs.head?.map Prod.fst = some c := by
  intro items
  induction items with
  | nil =>
    intro c run rs h hrun huniform
    obtain rfl := Except.ok.inj h
    refine ⟨⟨by simp, ?_, ?_, .singleton _⟩, rfl⟩
    · intro r hr
      obtain rfl := mem_singleton.mp hr
      simpa using hrun
    · intro r hr item hitem
      obtain rfl := mem_singleton.mp hr
      exact huniform item (mem_reverse.mp hitem)
  | cons item items ih =>
    intro c run rs h hrun huniform
    obtain ⟨c', hc', h⟩ := Except.bind_eq_ok.mp h
    by_cases hsame : c' = c
    · -- The item belongs to the current run.
      rw [if_pos hsame] at h
      have hlonger : Uniform c (item :: run) := forall_mem_cons.mpr ⟨by rw [hc', hsame], huniform⟩
      simpa using ih c (item :: run) rs h (cons_ne_nil _ _) hlonger
    · -- A new run begins; the current one is complete.
      rw [if_neg hsame] at h
      obtain ⟨later, hlater, h⟩ := Except.bind_eq_ok.mp h
      obtain rfl := Except.ok.inj h
      have hfirst : Uniform c' [item] := fun other hother => by rw [mem_singleton.mp hother, hc']
      obtain ⟨⟨htogether, hnonempty, hconds, hdiffer⟩, hhead⟩ :=
        ih c' [item] later hlater (cons_ne_nil _ _) hfirst
      refine ⟨⟨?_, ?_, ?_, ?_⟩, rfl⟩
      · rw [flatMap_cons, htogether]
        rfl
      · exact forall_mem_cons.mpr ⟨by simpa using hrun, hnonempty⟩
      · exact forall_mem_cons.mpr ⟨fun other hother => huniform other (mem_reverse.mp hother),
          hconds⟩
      · refine isChain_cons.mpr ⟨fun r hr => ?_, hdiffer⟩
        rw [Option.mem_def.mp hr] at hhead
        rw [Option.some.inj hhead]
        exact fun h => hsame h.symm

variable {items : List Item} {nodes : List Node}

theorem runs_spec (h : runs items = .ok rs) : Runs items rs := by
  cases items with
  | nil => cases h
  | cons item items =>
    obtain ⟨c, hc, h⟩ := Except.bind_eq_ok.mp h
    have hfirst : Uniform c [item] := fun other hother => by rw [mem_singleton.mp hother, hc]
    exact (runsFrom_spec items c [item] rs h (cons_ne_nil _ _) hfirst).1

theorem exists_bind_eq_ok {x : Except Fault α} {f : α → Except Fault β} :
    (∃ b, (x >>= f) = .ok b) ↔ ∃ a, x = .ok a ∧ ∃ b, f a = .ok b := by
  constructor
  · rintro ⟨b, h⟩
    obtain ⟨a, ha, hb⟩ := Except.bind_eq_ok.mp h
    exact ⟨a, ha, b, hb⟩
  · rintro ⟨a, ha, b, hb⟩
    exact ⟨b, Except.bind_eq_ok.mpr ⟨a, ha, hb⟩⟩

theorem runsFrom_ok_iff : ∀ (items : List Item) (c : String) (run : List Item),
    (∃ rs, runsFrom c run items = .ok rs) ↔ ∀ item ∈ items, item.insn?.isSome := by
  intro items
  induction items with
  | nil => intro c run; exact iff_of_true ⟨_, rfl⟩ (forall_mem_nil _)
  | cons item items ih =>
    intro c run
    have hgo : ∀ c', (∃ rs, (if c' = c then runsFrom c (item :: run) items else do
        return (c, run.reverse) :: (← runsFrom c' [item] items)) = .ok rs) ↔
          ∀ item ∈ items, item.insn?.isSome := by
      intro c'
      by_cases hsame : c' = c
      · rw [if_pos hsame, ih]
      · rw [if_neg hsame, exists_bind_eq_ok, ← ih c' [item]]
        exact exists_congr fun later => and_iff_left ⟨_, rfl⟩
    rw [forall_mem_cons, ← conditionOf_ok_iff, runsFrom, exists_bind_eq_ok, ← exists_and_right]
    exact exists_congr fun c' => and_congr_right fun _ => hgo c'

theorem runs_ok_iff : (∃ rs, runs items = .ok rs) ↔ Whole items := by
  cases items with
  | nil =>
    refine iff_of_false ?_ fun h => h.1 rfl
    rintro ⟨rs, h⟩
    cases h
  | cons item items =>
    rw [Whole, and_iff_right (cons_ne_nil _ _), forall_mem_cons, ← conditionOf_ok_iff, runs,
      exists_bind_eq_ok, ← exists_and_right]
    exact exists_congr fun c => and_congr_right fun _ => runsFrom_ok_iff items c [item]

/-- A block of one condition throughout is one run. -/
theorem Runs.eq_singleton {c : String} (h : Runs items rs) (hne : items ≠ [])
    (huniform : Uniform c items) : rs = [(c, items)] := by
  have hcond : ∀ r ∈ rs, r.1 = c := by
    intro r hr
    obtain ⟨item, hitem⟩ := exists_mem_of_ne_nil _ (h.nonempty r hr)
    have hin : item ∈ items := h.together ▸ mem_flatMap.mpr ⟨r, hr, hitem⟩
    exact Except.ok.inj ((h.uniform r hr item hitem).symm.trans (huniform item hin))
  cases rs with
  | nil => exact absurd h.together.symm hne
  | cons r rest =>
    cases rest with
    | nil =>
      have htogether : r.2 = items := by simpa using h.together
      rw [← htogether, ← hcond r (.head _)]
    | cons r' rest =>
      have hdiffer := (isChain_cons_cons.mp h.differ).1
      exact absurd ((hcond r (by simp)).trans (hcond r' (by simp)).symm) hdiffer

/-- What becomes of a block: it stays if it is one run, and otherwise there is a node for each
run. -/
theorem guarded_cases (h : guarded items = .ok nodes) : ∃ rs, Runs items rs ∧
    ((∃ c, rs = [(c, items)] ∧ nodes = [.block items]) ∨ 2 ≤ rs.length ∧
      nodes = rs.map runNode) := by
  obtain ⟨rs, hrs, h⟩ := Except.bind_eq_ok.mp h
  have hruns := runs_spec hrs
  have hne : items ≠ [] := (runs_ok_iff.mp ⟨rs, hrs⟩).1
  refine ⟨rs, hruns, ?_⟩
  split at h
  · rename_i r
    have htogether : r.2 = items := by simpa using hruns.together
    exact .inl ⟨r.1, by rw [← htogether], (Except.ok.inj h).symm⟩
  · rename_i hnot
    refine .inr ⟨?_, (Except.ok.inj h).symm⟩
    cases rs with
    | nil => exact absurd hruns.together.symm hne
    | cons r rest =>
      cases rest with
      | nil => exact absurd rfl (hnot r)
      | cons r' rest => simp

theorem guarded_ok_iff : (∃ nodes, guarded items = .ok nodes) ↔ Whole items := by
  rw [← runs_ok_iff, guarded, exists_bind_eq_ok]
  refine exists_congr fun rs => and_iff_left ?_
  split <;> exact ⟨_, rfl⟩

/-! ## The pass -/

mutual

/-- What becomes of a node: the nodes for a block, or the node with its inside changed. -/
def nodeGrouped : Node → List Node
  | .block items => (guarded items).toOption.getD []
  | .ifElse jump expected place next other slot fused =>
    [.ifElse jump expected place (branchGrouped next) (branchGrouped other) slot fused]
  | .loop endless place body => [.loop endless place (branchGrouped body)]
  | n => [n]

/-- What becomes of a branch. -/
def branchGrouped : List Node → List Node
  | [] => []
  | n :: rest => nodeGrouped n ++ branchGrouped rest

end

mutual

/-- What grouping inside a node gives. -/
theorem groupNode_gives : ∀ n : Node, n.items? = none → ∃ n', nodeGrouped n = [n'] ∧
    (groupNode n).Gives (∀ items ∈ n.openBlocks, Whole items) n'
  | .ifElse jump expected place next other slot fused => by
    intro _
    refine ⟨_, rfl, ?_⟩
    rw [Node.openBlocks, forall_mem_append, and_comm,
      ← and_true (∀ items ∈ branchOpenBlocks next, Whole items)]
    refine (groupBranch_gives other).andThen_snd fun r hr =>
      (groupBranch_gives next).andThen_snd fun r' hr' => ?_
    rw [hr, hr']
    exact .done
  | .loop endless place body => by
    intro _
    refine ⟨_, rfl, ?_⟩
    rw [Node.openBlocks, ← and_true (∀ items ∈ branchOpenBlocks body, Whole items)]
    refine (groupBranch_gives body).andThen_snd fun r hr => ?_
    rw [hr]
    exact .done
  | .goto _ _ | .comment _ | .ifGoto .. | .andIf .. | .ifCond .. => fun _ =>
    ⟨_, rfl, Edited.Gives.done.congr (iff_of_true trivial (forall_mem_nil _))⟩
  | .block _ => fun h => by cases h

/-- What grouping in a branch gives. -/
theorem groupBranch_gives : ∀ nodes : List Node,
    ((groupBranch nodes).map Prod.snd).Gives (∀ items ∈ branchOpenBlocks nodes, Whole items)
      (branchGrouped nodes)
  | [] => Edited.Gives.done.congr (iff_of_true trivial (forall_mem_nil _))
  | n :: rest => by
    have hrest := groupBranch_gives rest
    rw [branchOpenBlocks, forall_mem_append, branchGrouped]
    cases hi : n.items? with
    | none =>
      obtain ⟨n', hn', hgives⟩ := groupNode_gives n hi
      rw [groupBranch_cons hi, hn', Edited.map_andThen]
      exact hgives.andThen (hrest.map (n' :: ·))
    | some items =>
      obtain rfl := eq_block_of_items? hi
      rw [Node.openBlocks, forall_mem_singleton, ← guarded_ok_iff, groupBranch, nodeGrouped]
      cases hguarded : guarded items with
      | error e =>
        have hnot : ¬ ((∃ nodes, (.error e : Except Fault (List Node)) = .ok nodes) ∧
            ∀ items ∈ branchOpenBlocks rest, Whole items) := by
          rintro ⟨⟨nodes, h⟩, -⟩
          cases h
        exact ⟨iff_of_false (fun h => by cases h) hnot, fun h => absurd h hnot⟩
      | ok nodes =>
        rw [and_iff_right ⟨nodes, rfl⟩]
        exact hrest.map (nodes ++ ·)

end

/-- Grouping goes through exactly if all blocks outside of groups hold instructions and nothing
else. -/
theorem groupConditions_gives (tree : List Node) :
    (groupConditions tree).Gives (∀ items ∈ branchOpenBlocks tree, Whole items)
      (branchGrouped tree) := by
  rw [← and_true (∀ items ∈ branchOpenBlocks tree, Whole items)]
  refine (groupBranch_gives tree).andThen_snd fun r hr => ?_
  rw [hr]
  exact .done

/-! ## Order -/

theorem singles_runNode (r : String × List Item) :
    (runNode r).singles = r.2.map fun item => .block [item] := by
  unfold runNode
  split <;> simp [Node.singles, branchSingles]

theorem singles_guarded (h : guarded items = .ok nodes) :
    branchSingles nodes = (Node.block items).singles := by
  obtain ⟨rs, hruns, ⟨c, -, rfl⟩ | ⟨-, rfl⟩⟩ := guarded_cases h
  · simp [branchSingles]
  · have hmap : ∀ rs : List (String × List Item),
        branchSingles (rs.map runNode) = (rs.flatMap Prod.snd).map fun item => .block [item] := by
      intro rs
      induction rs with
      | nil => rfl
      | cons r rest ih =>
        rw [map_cons, branchSingles, singles_runNode, ih, flatMap_cons, map_append]
    rw [hmap, hruns.together, Node.singles]

theorem exists_guarded (h : Whole items) :
    ∃ nodes, guarded items = .ok nodes ∧ nodeGrouped (.block items) = nodes := by
  obtain ⟨nodes, hnodes⟩ := guarded_ok_iff.mpr h
  exact ⟨nodes, hnodes, by rw [nodeGrouped, hnodes]; rfl⟩

mutual

/-- A node is read as before. -/
theorem singles_nodeGrouped : ∀ n : Node, (∀ items ∈ n.openBlocks, Whole items) →
    branchSingles (nodeGrouped n) = n.singles
  | .block items => by
    intro h
    obtain ⟨nodes, hnodes, heq⟩ := exists_guarded (h items (mem_singleton_self _))
    rw [heq, singles_guarded hnodes]
  | .ifElse jump expected place next other slot fused => by
    intro h
    rw [Node.openBlocks, forall_mem_append] at h
    rw [nodeGrouped, Node.singles, ← singles_branchGrouped next h.1,
      ← singles_branchGrouped other h.2]
    rfl
  | .loop endless place body => by
    intro h
    rw [nodeGrouped, Node.singles, ← singles_branchGrouped body h]
    rfl
  | .ifCond _ body _ => fun _ => append_nil _
  | .goto _ _ | .comment _ | .ifGoto .. | .andIf .. => fun _ => rfl

/-- A branch is read as before. -/
theorem singles_branchGrouped :
    ∀ nodes : List Node, (∀ items ∈ branchOpenBlocks nodes, Whole items) →
    branchSingles (branchGrouped nodes) = branchSingles nodes
  | [] => fun _ => rfl
  | n :: rest => by
    intro h
    rw [branchOpenBlocks, forall_mem_append] at h
    rw [branchGrouped, branchSingles_append, singles_nodeGrouped n h.1,
      singles_branchGrouped rest h.2, branchSingles]

end

/-! ## Conditions -/

/-- An instruction stands under its condition, and under none if it always takes effect. -/
def Rightly (e : GuardedItem) : Prop :=
  ∀ c, conditionOf e.item = .ok c → if c = "AL" then e.conds = [] else some c ∈ e.conds

theorem guardedItems_runs (rs : List (String × List Item)) :
    ∀ e ∈ branchGuardedItems [] (rs.map runNode),
    ∃ r ∈ rs, e.item ∈ r.2 ∧ e.conds = if r.1 = "AL" then [] else [some r.1] := by
  induction rs with
  | nil => intro e he; cases he
  | cons r rest ih =>
    intro e he
    rcases mem_append.mp he with he | he
    · refine ⟨r, .head _, ?_⟩
      unfold runNode at he
      split at he
      · rename_i hal
        obtain ⟨item, hitem, rfl⟩ := mem_map.mp he
        exact ⟨hitem, (if_pos hal).symm⟩
      · rename_i hal
        have he' : e ∈ r.2.map fun item => (⟨[some r.1], item⟩ : GuardedItem) := by
          simpa [Node.guardedItems, branchGuardedItems] using he
        obtain ⟨item, hitem, rfl⟩ := mem_map.mp he'
        exact ⟨hitem, (if_neg hal).symm⟩
    · obtain ⟨r', hr', he⟩ := ih e he
      exact ⟨r', .tail _ hr', he⟩

/-- The instructions of a block stand under their conditions afterwards exactly if the block does
not have one and the same condition throughout, other than `AL`. -/
theorem rightly_guarded_iff (h : guarded items = .ok nodes) :
    (∀ e ∈ branchGuardedItems [] nodes, Rightly e) ↔ ∀ c, Uniform c items → c = "AL" := by
  have hne : items ≠ [] := (guarded_ok_iff.mp ⟨nodes, h⟩).1
  obtain ⟨rs, hruns, ⟨c, rfl, rfl⟩ | ⟨hlength, rfl⟩⟩ := guarded_cases h
  · have huniform : Uniform c items := hruns.uniform (c, items) (mem_singleton_self _)
    have hitems : branchGuardedItems [] [.block items] = items.map fun item => ⟨[], item⟩ :=
      append_nil _
    rw [hitems]
    constructor
    · intro hright c' huniform'
      obtain ⟨item, hitem⟩ := exists_mem_of_ne_nil _ hne
      have hitem' := hright ⟨[], item⟩ (mem_map.mpr ⟨item, hitem, rfl⟩) c' (huniform' item hitem)
      by_contra hal
      rw [if_neg hal] at hitem'
      cases hitem'
    · intro hal e he c' hc'
      obtain ⟨item, hitem, rfl⟩ := mem_map.mp he
      obtain rfl : c = c' := Except.ok.inj ((huniform item hitem).symm.trans hc')
      rw [if_pos (hal c huniform)]
  · refine iff_of_true ?_ ?_
    · intro e he c hc
      obtain ⟨r, hr, hitem, hconds⟩ := guardedItems_runs rs e he
      obtain rfl : r.1 = c := Except.ok.inj ((hruns.uniform r hr e.item hitem).symm.trans hc)
      rw [hconds]
      split
      · rfl
      · exact mem_singleton_self _
    · intro c huniform
      rw [hruns.eq_singleton hne huniform] at hlength
      exact absurd hlength (by simp)

mutual

/-- The instructions in a node stand under their conditions afterwards exactly if no block has a
condition throughout, and those that were in groups before stood under theirs. -/
theorem rightly_nodeGrouped_iff : ∀ n : Node, (∀ items ∈ n.openBlocks, Whole items) →
    ((∀ e ∈ branchGuardedItems [] (nodeGrouped n), Rightly e) ↔
      (∀ items ∈ n.openBlocks, ∀ c, Uniform c items → c = "AL") ∧
        ∀ e ∈ n.guardedItems [], e.conds ≠ [] → Rightly e)
  | .block items => by
    intro h
    obtain ⟨nodes, hnodes, heq⟩ := exists_guarded (h items (mem_singleton_self _))
    rw [heq, rightly_guarded_iff hnodes, Node.openBlocks, forall_mem_singleton]
    refine (and_iff_left ?_).symm
    intro e he hconds
    obtain ⟨item, -, rfl⟩ := mem_map.mp he
    exact absurd rfl hconds
  | .ifElse jump expected place next other slot fused => by
    intro h
    rw [Node.openBlocks, forall_mem_append] at h
    have hitems : branchGuardedItems []
        (nodeGrouped (.ifElse jump expected place next other slot fused)) =
        branchGuardedItems [] (branchGrouped next) ++ branchGuardedItems [] (branchGrouped other) :=
        append_nil _
    rw [hitems, Node.openBlocks, Node.guardedItems, forall_mem_append, forall_mem_append,
      forall_mem_append, rightly_branchGrouped_iff next h.1, rightly_branchGrouped_iff other h.2,
        and_and_and_comm]
  | .loop endless place body => by
    intro h
    have hitems : branchGuardedItems [] (nodeGrouped (.loop endless place body)) =
        branchGuardedItems [] (branchGrouped body) := append_nil _
    rw [hitems, rightly_branchGrouped_iff body h]
    rfl
  | .ifCond c body fused => by
    intro _
    have hitems : branchGuardedItems [] (nodeGrouped (.ifCond c body fused)) =
        branchGuardedItems [c] body :=
      append_nil _
    have hopen : (Node.ifCond c body fused).openBlocks = [] := rfl
    rw [hitems, hopen, and_iff_right (forall_mem_nil _), Node.guardedItems]
    refine forall₂_congr fun e he => ?_
    -- The condition of the group is around all that is in it.
    have hconds : e.conds ≠ [] := by
      intro hnil
      have hsuffix := suffix_of_mem_branchGuardedItems body he
      rw [hnil] at hsuffix
      exact absurd (suffix_nil.mp hsuffix) (cons_ne_nil _ _)
    exact (imp_iff_right hconds).symm
  | .goto _ _ | .comment _ | .ifGoto .. | .andIf .. => fun _ =>
    iff_of_true (forall_mem_nil _) ⟨forall_mem_nil _, forall_mem_nil _⟩

theorem rightly_branchGrouped_iff :
    ∀ nodes : List Node, (∀ items ∈ branchOpenBlocks nodes, Whole items) →
    ((∀ e ∈ branchGuardedItems [] (branchGrouped nodes), Rightly e) ↔
      (∀ items ∈ branchOpenBlocks nodes, ∀ c, Uniform c items → c = "AL") ∧
        ∀ e ∈ branchGuardedItems [] nodes, e.conds ≠ [] → Rightly e)
  | [] => fun _ => iff_of_true (forall_mem_nil _) ⟨forall_mem_nil _, forall_mem_nil _⟩
  | n :: rest => by
    intro h
    rw [branchOpenBlocks, forall_mem_append] at h
    rw [branchGrouped, branchGuardedItems_append, branchOpenBlocks, branchGuardedItems,
      forall_mem_append, forall_mem_append, forall_mem_append, rightly_nodeGrouped_iff n h.1,
      rightly_branchGrouped_iff rest h.2, and_and_and_comm]

end

/-! ## Neighbours -/

/-- The condition of a group, or of the first instruction of a block. -/
def groupCondition : Node → Option String
  | .ifCond c _ _ => c
  | .block (.insn i :: _) => some i.condition
  | _ => none

theorem groupCondition_runNode {r : String × List Item} (hne : r.2 ≠ [])
    (huniform : ∀ item ∈ r.2, conditionOf item = .ok r.1) :
    groupCondition (runNode r) = some r.1 := by
  unfold runNode
  split
  · cases hitems : r.2 with
    | nil => exact absurd hitems hne
    | cons item rest =>
      have hitem := huniform item (hitems ▸ .head _)
      cases item with
      | insn i => exact congrArg some (Except.ok.inj hitem)
      | gap | pseudo => cases hitem
  · rfl

/-- Neighbouring groups made from one block have different conditions. -/
theorem guarded_differ (h : guarded items = .ok nodes) :
    nodes.IsChain fun m n => groupCondition m ≠ groupCondition n := by
  obtain ⟨rs, hruns, ⟨c, -, rfl⟩ | ⟨-, rfl⟩⟩ := guarded_cases h
  · exact .singleton _
  · rw [isChain_map]
    have hcond : ∀ r ∈ rs, groupCondition (runNode r) = some r.1 := fun r hr =>
      groupCondition_runNode (hruns.nonempty r hr) (hruns.uniform r hr)
    refine hruns.differ.imp_of_mem_imp fun r r' hr hr' hdiffer => ?_
    rw [hcond r hr, hcond r' hr']
    exact fun h => hdiffer (Option.some.inj h)

/-- Grouping conditional instructions, for every tree. It goes through exactly if the blocks outside
of groups hold instructions and nothing else. Then the tree is read as before; the groups made from
one block differ from their neighbours; and the instructions of a block stand under their
conditions, unless the block has one and the same condition throughout, other than `AL`. So all
instructions do exactly if there is no such block, and those that were in groups before stood under
theirs. -/
theorem grouping_keeps_order_and_guards (tree : List Node) :
    ((groupConditions tree).fault = none ↔ ∀ items ∈ branchOpenBlocks tree, Whole items) ∧
    ((groupConditions tree).fault = none →
      (groupConditions tree).value = branchGrouped tree ∧
      branchSingles (groupConditions tree).value = branchSingles tree ∧
      (∀ items ∈ branchOpenBlocks tree,
        ((nodeGrouped (.block items)).IsChain fun m n => groupCondition m ≠ groupCondition n) ∧
        ((∀ e ∈ branchGuardedItems [] (nodeGrouped (.block items)), Rightly e) ↔
          ∀ c, Uniform c items → c = "AL")) ∧
      ((∀ e ∈ branchGuardedItems [] (groupConditions tree).value, Rightly e) ↔
        (∀ items ∈ branchOpenBlocks tree, ∀ c, Uniform c items → c = "AL") ∧
          ∀ e ∈ branchGuardedItems [] tree, e.conds ≠ [] → Rightly e)) := by
  obtain ⟨hfault, hvalue⟩ := groupConditions_gives tree
  refine ⟨hfault, fun hnone => ?_⟩
  have hwhole := hfault.mp hnone
  rw [hvalue hwhole]
  refine ⟨rfl, singles_branchGrouped tree hwhole, fun items hitems => ?_,
    rightly_branchGrouped_iff tree hwhole⟩
  obtain ⟨nodes, hnodes, heq⟩ := exists_guarded (hwhole items hitems)
  rw [heq]
  exact ⟨guarded_differ hnodes, rightly_guarded_iff hnodes⟩

/-- A move that takes effect under a condition. -/
def moveIf (addr : Int) (condition : String) : Insn where
  addr := addr
  bytes := [0, 0, 0, 0]
  opcode := "MOV"
  mnemonic := "mov"
  opText := "r0, #1"
  operands := [⟨.register "r0" 0, 4, none⟩, ⟨.immediate 1, 4, none⟩]
  jumpGroup := false
  callGroup := false
  retGroup := false
  repetition := none
  condition := condition
  setsFlags := false
  readsPc := false

/-- A block of four runs. -/
def fourRuns : List Item :=
  ["AL", "EQ", "EQ", "NE", "AL"].zipIdx.map fun e => .insn (moveIf (4 * e.2) e.1)

/-- The four runs as nodes. -/
def fourRunsGrouped : List Node :=
  [.block [.insn (moveIf 0 "AL")],
   .ifCond (some "EQ") [.block [.insn (moveIf 4 "EQ"), .insn (moveIf 8 "EQ")]] none,
   .ifCond (some "NE") [.block [.insn (moveIf 12 "NE")]] none, .block [.insn (moveIf 16 "AL")]]

/-- A block of four runs in a loop: the two in the middle become groups. -/
theorem grouping_keeps_order_and_guards_fourRuns :
    (groupConditions [.loop true 0 [.block fourRuns]]).fault = none ∧
    (groupConditions [.loop true 0 [.block fourRuns]]).value = [.loop true 0 fourRunsGrouped] ∧
    branchSingles [.loop true 0 fourRunsGrouped] = branchSingles [.loop true 0 [.block fourRuns]] ∧
    ∀ e ∈ branchGuardedItems [] [.loop true 0 fourRunsGrouped], Rightly e := by
  obtain ⟨hfault, hspec⟩ := grouping_keeps_order_and_guards [.loop true 0 [.block fourRuns]]
  have hopen : branchOpenBlocks [.loop true 0 [.block fourRuns]] = [fourRuns] := rfl
  rw [hopen, forall_mem_singleton] at hfault
  have hnone := hfault.mpr (by unfold Whole; decide)
  obtain ⟨hvalue, horder, -, hright⟩ := hspec hnone
  have hgrouped : branchGrouped [.loop true 0 [.block fourRuns]] = [.loop true 0 fourRunsGrouped] :=
    rfl
  rw [hvalue, hgrouped] at horder hright
  refine ⟨hnone, hvalue.trans hgrouped, horder, hright.mpr ⟨?_, ?_⟩⟩
  · rw [hopen, forall_mem_singleton]
    intro c huniform
    exact (Except.ok.inj (huniform (.insn (moveIf 0 "AL")) (.head _))).symm
  · intro e he hconds
    -- There are no groups yet.
    have he' : e ∈ fourRuns.map fun item => (⟨[], item⟩ : GuardedItem) := by
      simpa [branchGuardedItems, Node.guardedItems] using he
    obtain ⟨item, -, rfl⟩ := mem_map.mp he'
    exact absurd rfl hconds

/-- A block of one conditional instruction stays as it is: nothing shows the condition. -/
theorem lone_condition_unguarded :
    groupConditions [.block [.insn (moveIf 0 "EQ")]] = .done [.block [.insn (moveIf 0 "EQ")]] ∧
    ¬ ∀ e ∈ branchGuardedItems [] [.block [.insn (moveIf 0 "EQ")]], Rightly e := by
  refine ⟨rfl, fun h => ?_⟩
  have hmove := h ⟨[], .insn (moveIf 0 "EQ")⟩ (mem_singleton_self _) "EQ" rfl
  simp at hmove

end Arm

end Decompiler
