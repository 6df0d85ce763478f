import Decompiler.Proofs.Exploration
import Decompiler.Proofs.TreeInsns
/-!
# Comparisons in conditions

A comparison that a condition shows is left out where it stands, by its address. Two things make up
for it once the passes of an architecture have run. The address of a comparison that is left out is
that of the comparison in some condition of the tree (`Remarked`). And where an `else` part is
nothing but a lone comparison and another `if`, the comparison is the one in the condition of that
`if`, so the part can be written as an `else if` without it (`branchPaired`).
-/

namespace Decompiler

open List

variable {i : Insn} {n n' : Node} {nodes tree : List Node} {succs : Edges} {p : Pass}

variable {arch : Arch} {nodes : List Node} {addrs : List Int}

/-! ## Else parts that begin with a comparison -/

/-- A branch of a lone comparison and a branch in two shows the comparison in the condition. -/
def PairFused (arch : Arch) (nodes : List Node) : Prop :=
  ∀ i n, nodes = [.block [.insn i], n] → arch.isCmp i = true → n.isIfElse = true → n.fused? = some i

mutual

/-- In the branches in two of a node, an else part of a lone comparison and an `if` shows the
comparison in the condition. -/
def Node.Paired (arch : Arch) : Node → Prop
  | .ifElse _ _ _ next other _ _ =>
    PairFused arch other ∧ branchPaired arch next ∧ branchPaired arch other
  | .loop _ _ body => branchPaired arch body
  | .ifCond _ body _ => branchPaired arch body
  | .block _ | .goto _ _ | .comment _ | .ifGoto .. | .andIf .. => True

/-- The same for the nodes of a branch. -/
def branchPaired (arch : Arch) : List Node → Prop
  | [] => True
  | n :: rest => n.Paired arch ∧ branchPaired arch rest

end

theorem branchPaired_iff : branchPaired arch nodes ↔ ∀ n ∈ nodes, n.Paired arch := by
  induction nodes with
  | nil => simp [branchPaired]
  | cons n rest ih => simp [branchPaired, ih]

theorem branchPaired_of_onlyBlocks (h : OnlyBlocks nodes) : branchPaired arch nodes := by
  rw [branchPaired_iff]
  intro n hn
  obtain ⟨items, rfl⟩ := h n hn
  trivial

/-- Where nothing is a comparison, nothing has to be shown. -/
theorem Node.paired_of_flat (hcmp : ∀ i, arch.isCmp i = false) (n : Node) :
    n.Flat → n.Paired arch := by
  have hbranch : ∀ {nodes : List Node}, (∀ n ∈ nodes, n.Flat → n.Paired arch) → branchFlat nodes →
      branchPaired arch nodes := by
    intro nodes ih h
    rw [branchFlat_iff] at h
    exact branchPaired_iff.mpr fun n hn => ih n hn (h n hn)
  induction n using Node.induction with
  | block | goto | comment | ifGoto | andIf => intro _; trivial
  | ifCond cond body fused => intro h; exact branchPaired_of_onlyBlocks h
  | loop endless place body ih => intro h; exact hbranch ih h
  | ifElse jump expected place next other slot fused ihnext ihother =>
    intro h
    refine ⟨fun i n _ hi => ?_, hbranch ihnext h.1, hbranch ihother h.2⟩
    rw [hcmp] at hi
    cases hi

/-! ## Fusing -/

/-- Every address of a list is that of an instruction which is written as a remark. -/
def Remarked (addrs : List Int) (held : List HeldInsn) : Prop :=
  ∀ a ∈ addrs, ∃ h ∈ held, h.asRemark = true ∧ h.insn.addr = a

variable {held held' : List HeldInsn}

theorem Remarked.mono (h : Remarked addrs held) (hsub : held ⊆ held') : Remarked addrs held' := by
  intro a ha
  obtain ⟨x, hx, hremark, haddr⟩ := h a ha
  exact ⟨x, hsub hx, hremark, haddr⟩

theorem Remarked.append {addrs' : List Int} (h : Remarked addrs held) (h' : Remarked addrs' held') :
    Remarked (addrs ++ addrs') (held ++ held') := by
  intro a ha
  rcases mem_append.mp ha with ha | ha
  · exact h.mono (subset_append_left _ _) a ha
  · exact h'.mono (subset_append_right _ _) a ha

theorem Arch.isFusable_of_isCmp (h : arch.isCmp i = true) : arch.isFusable i = true := by
  cases arch with
  | x86 | arm =>
    have hop : i.opcode = "CMP" := of_decide_eq_true h
    simp [Arch.isFusable, hop]
  | mips => cases h

/-- The instructions in the branches of a node. -/
def Node.inside : Node → List HeldInsn
  | .ifElse _ _ _ next other _ _ => branchHeld next ++ branchHeld other
  | .ifCond _ body _ => branchHeld body
  | .loop _ _ body => branchHeld body
  | .block _ => []
  | .goto _ _ => []
  | .comment _ => []
  | .ifGoto _ _ _ _ _ => []
  | .andIf _ _ _ _ _ => []

theorem Node.mem_held_of_inside {h : HeldInsn} (hin : h ∈ n.inside) : h ∈ n.held := by
  cases n with
  | block | goto | comment | ifGoto | andIf => cases hin
  | loop => exact hin
  | ifCond | ifElse => exact mem_append_right _ hin

/-- A node has become another one of the same kind, in which else parts are paired. The addresses
are those of remarks inside of it. -/
structure Node.FusedTo (arch : Arch) (n n' : Node) (addrs : List Int) : Prop where
  isIfElse : n'.isIfElse = n.isIfElse
  items : n'.items? = n.items?
  canFuse : arch.canFuse n' = arch.canFuse n
  paired : n.Flat → n'.Paired arch
  remarked : Remarked addrs n'.inside

theorem Node.FusedTo.refl (h : n.Flat → n.Paired arch) : n.FusedTo arch n [] :=
  ⟨rfl, rfl, rfl, h, fun a ha => by cases ha⟩

/-- Putting a comparison into a condition changes nothing else. -/
theorem Node.FusedTo.withFused (h : n.FusedTo arch n' addrs) (hcan : arch.canFuse n = true) :
    n.FusedTo arch (n'.withFused i) addrs ∧ (n'.withFused i).fused? = some i := by
  obtain ⟨hif, hitems, hfuse, hpaired, hremarked⟩ := h
  rw [← hfuse] at hcan
  cases n' with
  | block | goto | comment | loop => cases arch <;> cases hcan
  | ifGoto | andIf | ifCond | ifElse =>
    refine ⟨⟨hif, hitems, ?_, hpaired, hremarked⟩, rfl⟩
    rw [← hfuse]
    cases arch <;> rfl

/-- A node in a branch after a comparison, where that is shown in its condition if it can be. -/
theorem branchFuse_cons (arch : Arch) (comparison : Option Insn) (h : n.items? = none)
    (rest : List Node) :
    branchFuse arch comparison (n :: rest) =
      ((n.fuse arch).map fun r =>
        ((if arch.canFuse n then comparison else none).elim r.1 fun i => r.1.withFused i,
          ((if arch.canFuse n then comparison else none).map (·.addr)).toList ++ r.2)).andThen
        (fun r => (r.1 :: rest, r.2)) fun r => (branchFuse arch none rest).map fun r' =>
          (r.1 :: r'.1, r.2 ++ r'.2) := by
  cases n with
  | block items => cases h
  | goto | comment | ifGoto | andIf | ifCond | ifElse | loop => rfl

/-- What fusing makes of a branch. If a comparison stands in front of it, the first node shows it in
its condition, if it can. -/
structure BranchFusedTo (arch : Arch) (comparison : Option Insn) (nodes nodes' : List Node)
    (addrs : List Int) : Prop where
  paired : branchFlat nodes → branchPaired arch nodes'
  remarked : Remarked addrs (branchHeld nodes')
  shows : ∀ i n rest, comparison = some i → nodes' = n :: rest → n.isIfElse = true →
    n.fused? = some i
  pair : PairFused arch nodes'

theorem Node.canFuse_of_isIfElse (h : n.isIfElse = true) : arch.canFuse n = true := by
  cases n with
  | ifElse => cases arch <;> rfl
  | block | goto | comment | ifGoto | andIf | ifCond | loop => cases h

/-- A node after a comparison: if it can show the comparison it does. -/
theorem Node.FusedTo.shown {arch : Arch} {addrs : List Int} (h : n.FusedTo arch n' addrs)
    {comparison shown : Option Insn}
    (hshown : shown = if arch.canFuse n then comparison else none) :
    n.FusedTo arch (shown.elim n' fun i => n'.withFused i) addrs ∧
      Remarked ((shown.map (·.addr)).toList ++ addrs) (shown.elim n' fun i => n'.withFused i).held ∧
      ∀ i, comparison = some i → (shown.elim n' fun i => n'.withFused i).isIfElse = true →
        (shown.elim n' fun i => n'.withFused i).fused? = some i := by
  cases shown with
  | none =>
    refine ⟨h, h.remarked.mono fun _ => Node.mem_held_of_inside, fun i hi hif => ?_⟩
    rw [if_pos (Node.canFuse_of_isIfElse (h.isIfElse ▸ hif)), hi] at hshown
    cases hshown
  | some i =>
    split at hshown
    · rename_i hcan
      obtain ⟨hfused, hfused?⟩ := h.withFused (i := i) hcan
      refine ⟨hfused, fun a ha => ?_, fun j hj _ => ?_⟩
      · rcases mem_cons.mp ha with rfl | ha
        · exact ⟨⟨i, true⟩, Node.mem_held_of_fused? hfused?, rfl, rfl⟩
        · exact hfused.remarked.mono (fun _ => Node.mem_held_of_inside) a ha
      · rw [← hj, ← hshown]
        exact hfused?
    · cases hshown

/-- Fusing a branch whose nodes are fused one by one. -/
theorem branchFuse_fusedTo (arch : Arch) : ∀ (nodes : List Node) (comparison : Option Insn),
    (∀ n ∈ nodes, (n.fuse arch).fault = none →
      n.FusedTo arch (n.fuse arch).value.1 (n.fuse arch).value.2) →
    (branchFuse arch comparison nodes).fault = none →
    BranchFusedTo arch comparison nodes (branchFuse arch comparison nodes).value.1
      (branchFuse arch comparison nodes).value.2 := by
  intro nodes
  induction nodes with
  | nil =>
    intro comparison _ _
    refine ⟨fun _ => trivial, fun a ha => ?_, fun i n rest _ h => ?_, fun i n h => ?_⟩
    · cases ha
    · cases h
    · cases h
  | cons n rest ih =>
    intro comparison hnodes hfault
    have hrest := (forall_mem_cons.mp hnodes).2
    cases hi : n.items? with
    | some items =>
      obtain rfl := eq_block_of_items? hi
      unfold branchFuse at hfault ⊢
      cases hfound : arch.comparison items with
      | error e =>
        rw [hfound] at hfault
        cases hfault
      | ok found =>
        rw [hfound] at hfault
        dsimp only [Edited.map] at hfault ⊢
        obtain ⟨hpaired, hremarked, hshows, -⟩ := ih found hrest hfault
        refine ⟨fun hflat => ⟨trivial, hpaired hflat.2⟩, ?_, ?_, ?_⟩
        · exact hremarked.mono (subset_append_right _ _)
        · rintro i n rest' _ heq hif
          cases heq
          cases hif
        · -- A lone comparison in front: it is the last instruction of its block.
          intro i n heq hcmp hif
          obtain ⟨hitems, hrest'⟩ := cons.inj heq
          obtain rfl := Node.block.inj hitems
          refine hshows i n [] ?_ hrest' hif
          have hcomparison : arch.comparison [.insn i] = .ok (some i) := by
            simp [Arch.comparison, lastItem, Item.insn?, Arch.isFusable_of_isCmp hcmp]
          rw [hcomparison] at hfound
          exact (Except.ok.inj hfound).symm
    | none =>
      rw [branchFuse_cons arch comparison hi] at hfault ⊢
      obtain ⟨hfirst, heq⟩ := Edited.andThen_done hfault
      rw [heq] at hfault ⊢
      obtain ⟨hpaired, hremarked, -, -⟩ := ih none hrest hfault
      obtain ⟨hn, haddrs, hshows⟩ := (hnodes n (.head _) hfirst).shown
        (show _ = if arch.canFuse n then comparison else none from rfl)
      refine ⟨fun hflat => ⟨hn.paired hflat.1, hpaired hflat.2⟩, haddrs.append hremarked, ?_, ?_⟩
      · rintro i m rest' hcomparison heq hif
        cases heq
        exact hshows i hcomparison hif
      · -- The first node is no block, as it was none before.
        intro i m heq
        have hblock := congrArg Node.items? (cons.inj heq).1
        cases hblock.symm.trans (hn.items.trans hi)

theorem Node.fuse_fusedTo (arch : Arch) (n : Node) : (n.fuse arch).fault = none →
    n.FusedTo arch (n.fuse arch).value.1 (n.fuse arch).value.2 := by
  induction n using Node.induction with
  | block | goto | comment | ifGoto | andIf => intro _; exact .refl fun _ => trivial
  | ifCond cond body fused => intro _; exact .refl branchPaired_of_onlyBlocks
  | loop endless place body ih =>
    intro hfault
    have hbody := branchFuse_fusedTo arch body none ih hfault
    exact ⟨rfl, rfl, rfl, hbody.paired, hbody.remarked⟩
  | ifElse jump expected place next other slot fused ihnext ihother =>
    intro hfault
    unfold Node.fuse at hfault ⊢
    obtain ⟨hfirst, heq⟩ := Edited.andThen_done hfault
    dsimp only at heq
    rw [heq] at hfault ⊢
    have hnext := branchFuse_fusedTo arch next none ihnext hfirst
    have hother := branchFuse_fusedTo arch other none ihother hfault
    refine ⟨rfl, rfl, ?_, fun hflat => ⟨hother.pair, hnext.paired hflat.1, hother.paired hflat.2⟩,
      hnext.remarked.append hother.remarked⟩
    cases arch <;> rfl

/-! ## Grouping conditional instructions -/

namespace Arm

theorem flat_guarded {items : List Item} (h : guarded items = .ok nodes) : branchFlat nodes := by
  have hrun : ∀ r, (runNode r).Flat := by
    intro r
    unfold runNode
    split
    · trivial
    · intro n hn
      exact ⟨r.2, mem_singleton.mp hn⟩
  obtain ⟨rs, -, hrs⟩ := Except.bind_eq_ok.mp h
  split at hrs
  · rw [← Except.ok.inj hrs]
    exact ⟨trivial, trivial⟩
  · rw [← Except.ok.inj hrs, branchFlat_iff]
    intro n hn
    obtain ⟨r, -, rfl⟩ := mem_map.mp hn
    exact hrun r

theorem groupBranch_cons (h : n.items? = none) (rest : List Node) :
    groupBranch (n :: rest) = (groupNode n).andThen (fun n => (n :: rest, [])) fun n =>
      (groupBranch rest).map fun r => (n :: r.1, n :: r.2) := by
  cases n with
  | block items => cases h
  | goto | comment | ifGoto | andIf | ifCond | ifElse | loop => rfl

theorem flat_groupBranch
    (hnodes : ∀ n ∈ nodes, n.Flat → (groupNode n).fault = none → (groupNode n).value.Flat)
    (h : branchFlat nodes) (hfault : (groupBranch nodes).fault = none) :
    branchFlat (groupBranch nodes).value.2 := by
  induction nodes with
  | nil => trivial
  | cons n rest ih =>
    have hrest := ih (forall_mem_cons.mp hnodes).2 h.2
    cases hi : n.items? with
    | none =>
      rw [groupBranch_cons hi] at hfault ⊢
      obtain ⟨hfirst, heq⟩ := Edited.andThen_done hfault
      rw [heq] at hfault ⊢
      exact ⟨hnodes n (.head _) h.1 hfirst, hrest hfault⟩
    | some items =>
      obtain rfl := eq_block_of_items? hi
      unfold groupBranch at hfault ⊢
      cases hguarded : guarded items with
      | error e =>
        rw [hguarded] at hfault
        cases hfault
      | ok nodes =>
        rw [hguarded] at hfault
        exact branchFlat_append.mpr ⟨flat_guarded hguarded, hrest hfault⟩

theorem flat_groupNode (n : Node) :
    n.Flat → (groupNode n).fault = none → (groupNode n).value.Flat := by
  induction n using Node.induction with
  | block | goto | comment | ifGoto | andIf => intro _ _; trivial
  | ifCond => intro h _; exact h
  | loop endless place body ih =>
    intro h hfault
    unfold groupNode at hfault ⊢
    obtain ⟨hfirst, heq⟩ := Edited.andThen_done hfault
    rw [heq]
    exact flat_groupBranch ih h hfirst
  | ifElse jump expected place next other slot fused ihnext ihother =>
    intro h hfault
    unfold groupNode at hfault ⊢
    obtain ⟨hfirst, heq⟩ := Edited.andThen_done hfault
    dsimp only at heq
    rw [heq] at hfault ⊢
    obtain ⟨hsecond, heq⟩ := Edited.andThen_done hfault
    rw [heq]
    exact ⟨flat_groupBranch ihnext h.1 hsecond, flat_groupBranch ihother h.2 hfirst⟩

/-- Grouping leaves nothing but blocks in the groups. -/
theorem flat_groupConditions (h : branchFlat tree) (hfault : (groupConditions tree).fault = none) :
    branchFlat (groupConditions tree).value := by
  unfold groupConditions at hfault ⊢
  obtain ⟨hfirst, heq⟩ := Edited.andThen_done hfault
  rw [heq]
  exact flat_groupBranch (fun n _ => flat_groupNode n) h hfirst

end Arm

/-! ## Loading constants -/

namespace Mips

theorem flat_loadBranch_of_nodes
    (hnodes : ∀ n ∈ nodes, n.Flat → (loadNode n).fault = none → (loadNode n).value.Flat)
    (h : branchFlat nodes) (hfault : (loadBranch nodes).fault = none) :
    branchFlat (loadBranch nodes).value := by
  induction nodes with
  | nil => trivial
  | cons n rest ih =>
    unfold loadBranch at hfault ⊢
    obtain ⟨hfirst, heq⟩ := Edited.andThen_done hfault
    rw [heq] at hfault ⊢
    exact ⟨hnodes n (.head _) h.1 hfirst, ih (forall_mem_cons.mp hnodes).2 h.2 hfault⟩

theorem flat_loadNode (n : Node) :
    n.Flat → (loadNode n).fault = none → (loadNode n).value.Flat := by
  induction n using Node.induction with
  | block | goto | comment | ifGoto | andIf => intro _ _; trivial
  | ifCond => intro h _; exact h
  | loop endless place body ih => intro h hfault; exact flat_loadBranch_of_nodes ih h hfault
  | ifElse jump expected place next other slot fused ihnext ihother =>
    intro h hfault
    unfold loadNode at hfault ⊢
    obtain ⟨hfirst, heq⟩ := Edited.andThen_done hfault
    dsimp only at heq
    rw [heq] at hfault ⊢
    exact ⟨flat_loadBranch_of_nodes ihnext h.1 hfault, flat_loadBranch_of_nodes ihother h.2 hfirst⟩

theorem flat_loadBranch (h : branchFlat tree) (hfault : (loadBranch tree).fault = none) :
    branchFlat (loadBranch tree).value :=
  flat_loadBranch_of_nodes (fun n _ => flat_loadNode n) h hfault

end Mips

/-! ## Colouring targets -/

theorem Marks.tint_fused (m : Marks) (addr : Int) : (m.tint addr).fused = m.fused := by
  unfold Marks.tint
  split
  · rfl
  · rfl

theorem Arch.tintJump_fused {m : Marks} (items : List Item) :
    (Edited.attempt m (arch.tintJump succs m items)).value.fused = m.fused := by
  unfold Arch.tintJump
  cases arch.jumpOf succs items with
  | error e => rfl
  | ok target =>
    cases target with
    | none => rfl
    | some addr => exact m.tint_fused addr

theorem Edited.next_value {α : Type} (e : Edited α) (f : α → Edited α) :
    (e.next f).value = e.value ∨ (e.next f).value = (f e.value).value := by
  unfold Edited.next Edited.andThen
  split
  · exact .inl rfl
  · exact .inr rfl

theorem branchTintTargets_fused
    (h : ∀ n ∈ nodes, ∀ m, (n.tintTargets arch succs m).value.fused = m.fused) :
    ∀ m, (branchTintTargets arch succs m nodes).value.fused = m.fused := by
  induction nodes with
  | nil => intro m; rfl
  | cons n rest ih =>
    intro m
    have hn := h n (.head _) m
    have hrest := ih (forall_mem_cons.mp h).2 (n.tintTargets arch succs m).value
    unfold branchTintTargets
    rcases Edited.next_value (n.tintTargets arch succs m)
      (branchTintTargets arch succs · rest) with heq | heq
    · rw [heq, hn]
    · rw [heq, hrest, hn]

theorem Node.tintTargets_fused (arch : Arch) (succs : Edges) (n : Node) :
    ∀ m, (n.tintTargets arch succs m).value.fused = m.fused := by
  induction n using Node.induction with
  | block items => intro m; exact Arch.tintJump_fused items
  | goto target | ifGoto jump cond target => intro m; exact m.tint_fused target
  | comment | andIf => intro m; rfl
  | loop endless place body ih => exact branchTintTargets_fused ih
  | ifCond cond body fused ih =>
    intro m
    unfold Node.tintTargets
    split
    · rfl
    · exact branchTintTargets_fused ih m
  | ifElse jump expected place next other slot fused ihnext ihother =>
    intro m
    have hother := branchTintTargets_fused ihother m
    have hnext := branchTintTargets_fused ihnext (branchTintTargets arch succs m other).value
    unfold Node.tintTargets
    rcases Edited.next_value (branchTintTargets arch succs m other)
      (branchTintTargets arch succs · next) with heq | heq
    · rw [heq, hother]
    · rw [heq, hnext, hother]

/-! ## The passes of an architecture -/

namespace Pass

variable {arch : Arch} {symbols : Symbols} {succs : Edges} {t : Treatment}

/-- What the writing of a tree rests on: else parts are paired, and what is left out is remarked
upon elsewhere. -/
structure Accounted (arch : Arch) (tree : List Node) (hidden : List Int) : Prop where
  paired : branchPaired arch tree
  remarked : Remarked hidden (branchHeld tree)

/-- The comparisons in the conditions of a tree are all that is left out of it, if nothing was left
out before. -/
theorem fuse_accounted (hflat : branchFlat t.tree) (hfused : t.marks.fused = [])
    (hfault : (run arch symbols succs t .fuse).fault = none) :
    Accounted arch (run arch symbols succs t .fuse).value.tree
      (run arch symbols succs t .fuse).value.marks.fused := by
  have hbranch := branchFuse_fusedTo arch t.tree none (fun n _ => n.fuse_fusedTo arch) hfault
  refine ⟨hbranch.paired hflat, fun a ha => hbranch.remarked a ?_⟩
  have hin : a ∈ unite t.marks.fused (arch.fuse t.tree).value.2 := ha
  rw [hfused] at hin
  exact (mem_unite.mp hin).resolve_left not_mem_nil

theorem runAll_cons {rest : List Pass}
    (h : (runAll arch symbols succs t (p :: rest)).fault = none) :
    (run arch symbols succs t p).fault = none ∧
      runAll arch symbols succs t (p :: rest) =
        runAll arch symbols succs (run arch symbols succs t p).value rest := by
  obtain ⟨hfirst, heq⟩ := Edited.andThen_done h
  exact ⟨hfirst, heq⟩

/-- The passes that only look at a tree. -/
def looking : List Pass := [.declareLocals, .markGuards, .noteSyscalls, .tintTargets]

/-- A pass that looks at a tree leaves the tree, and what is left out of it, as they are. -/
theorem run_looking (h : p ∈ looking) :
    (run arch symbols succs t p).value.tree = t.tree ∧
      (run arch symbols succs t p).value.marks.fused = t.marks.fused := by
  cases p with
  | declareLocals | markGuards | noteSyscalls => exact ⟨rfl, rfl⟩
  | tintTargets =>
    exact ⟨rfl, branchTintTargets_fused (fun n _ => n.tintTargets_fused arch succs) t.marks⟩
  | fuse | groupConditions | loadImmediates => exact absurd h (by decide)

theorem runAll_looking : ∀ {passes : List Pass} {t : Treatment},
    (∀ p ∈ passes, p ∈ looking) → (runAll arch symbols succs t passes).fault = none →
    (runAll arch symbols succs t passes).value.tree = t.tree ∧
      (runAll arch symbols succs t passes).value.marks.fused = t.marks.fused := by
  intro passes
  induction passes with
  | nil => intro t _ _; exact ⟨rfl, rfl⟩
  | cons p rest ih =>
    intro t h hfault
    obtain ⟨hp, hrest⟩ := forall_mem_cons.mp h
    obtain ⟨-, heq⟩ := runAll_cons hfault
    rw [heq] at hfault ⊢
    obtain ⟨htree, hfused⟩ := ih hrest hfault
    obtain ⟨htree', hfused'⟩ := run_looking hp
    exact ⟨htree.trans htree', hfused.trans hfused'⟩

/-- After the passes of its architecture a tree can be written. -/
theorem accounted_of_passes (hflat : branchFlat t.tree) (hfused : t.marks.fused = [])
    (hfault : (runAll arch symbols succs t arch.passes).fault = none) :
    Accounted arch (runAll arch symbols succs t arch.passes).value.tree
      (runAll arch symbols succs t arch.passes).value.marks.fused := by
  cases arch with
  | x86 =>
    simp only [Arch.passes] at hfault ⊢
    obtain ⟨hfuse, heq⟩ := runAll_cons hfault
    rw [heq] at hfault ⊢
    obtain ⟨htree, hmarks⟩ := runAll_looking (by decide) hfault
    rw [htree, hmarks]
    exact fuse_accounted hflat hfused hfuse
  | arm =>
    simp only [Arch.passes] at hfault ⊢
    obtain ⟨hgroup, heq⟩ := runAll_cons hfault
    rw [heq] at hfault ⊢
    obtain ⟨hfuse, heq⟩ := runAll_cons hfault
    rw [heq]
    exact fuse_accounted (Arm.flat_groupConditions hflat hgroup) hfused hfuse
  | mips =>
    simp only [Arch.passes] at hfault ⊢
    obtain ⟨hload, heq⟩ := runAll_cons hfault
    rw [heq]
    have htree := Mips.flat_loadBranch hflat hload
    refine ⟨branchPaired_iff.mpr fun n hn =>
      n.paired_of_flat (fun _ => rfl) (branchFlat_iff.mp htree n hn), ?_⟩
    intro a ha
    have hin : a ∈ t.marks.fused := ha
    rw [hfused] at hin
    cases hin

end Pass

end Decompiler
