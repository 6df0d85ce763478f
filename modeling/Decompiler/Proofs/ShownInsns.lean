import Decompiler.Proofs.Acts
import Decompiler.Proofs.Columns
import Decompiler.Proofs.Fusions
import Decompiler.Proofs.OneByteCode
/-!
# A printed function shows all its instructions

An instruction is left out of a printed function in two places: where a condition shows it, and in
an else part that is written as an `else if`. Both times it is written as a remark elsewhere
(`Pass.Accounted`), so that with comments on every instruction of a tree has its address in the
column of some line (`Act.function_shows_every_insn`).
-/

namespace Decompiler

open List

variable {addr : Int} {P : List Piece → Prop} {body : List Node} {fused jump : Option Insn}

namespace Scene

open Listing

variable {s : Scene} {e : HeldInsn}

/-- An instruction of a tree is written where it stands: as a remark, or since it is not left
out. -/
def Writes (s : Scene) (e : HeldInsn) : Prop := e.asRemark = true ∨ e.insn.addr ∉ s.marks.fused

/-! ## Branches -/

/-- All instructions of a node that are written at all are shown. -/
def NodeShown (s : Scene) (n : Node) : Prop :=
  ∀ depth chained, ∀ e ∈ n.held, s.Writes e →
    (s.node depth chained n).Shows e.insn.addr

/-- Constructs in braces show what is inside. -/
theorem braces_shows {body : Listing Unit} (h : body.Shows addr)
    (depth : Int) (rest : Listing Unit) :
    (do put .opening; newline; body; indent depth; put .closing; rest).Takes P (Shown addr) :=
  Takes.after _ fun _ _ => takes_newline.bind fun _ _ => h.left _

theorem elseBlock_shows {body : Listing Unit} (h : body.Shows addr)
    (depth : Int) : (elseBlock depth body).Takes P (Shown addr) :=
  Takes.after _ fun _ _ => braces_shows h depth newline

/-- A conditional group on one line is a block of one member. -/
theorem eq_block_of_fitsOnLine {it : Item}
    (h : fitsOnLine body fused = .ok (some it)) : body = [.block [it]] ∧ fused = none := by
  unfold fitsOnLine at h
  split at h
  · rw [Option.some.inj (Except.ok.inj h)]
    exact ⟨rfl, rfl⟩
  all_goals cases h

/-- A block of a lone comparison in front of a branch in two, where the condition shows the
comparison, is shown by that branch. -/
theorem chained_shown {b n : Node} (hpair : PairFused s.arch [b, n]) (hn : s.NodeShown n)
    (hlone : (s.isLoneCmp b && n.isIfElse) = true) (he : e ∈ branchHeld [b, n]) (hw : s.Writes e)
    (depth : Int) : (s.node depth true n).Shows e.insn.addr := by
  obtain ⟨hb, hif⟩ := Bool.and_eq_true_iff.mp hlone
  rcases mem_append.mp he with hin | hin
  · unfold isLoneCmp at hb
    split at hb
    · rename_i i
      obtain rfl := mem_singleton.mp hin
      exact hn depth true ⟨i, true⟩ (Node.mem_held_of_fused? (hpair i n rfl hb hif)) (.inl rfl)
    · cases hb
  · exact hn depth true e (by simpa [branchHeld] using hin) hw

/-! ## Ends of lines -/

theorem newline_not_mem_condition (cond : Option String) :
    .newline ∉ (s.condition cond none).pieces := by
  unfold condition
  cases s.arch <;>
    simp [X86.condition, Arm.condition, Mips.condition, bind, andThen, write, put, only, apply_ite,
      done]
  all_goals split <;> simp

theorem takes_item (it : Item) (depth : Int) : (s.item it depth).Takes LineStart LineStart := by
  cases it with
  | gap => exact takes_done ()
  | insn i => exact takes_insn depth
  | pseudo text parts =>
    unfold item Mips.pseudo
    cases parts <;> repeat' first | exact takes_newline | refine Takes.after _ fun _ _ => ?_

section

variable (hcomments : s.options.comments = true)
include hcomments

theorem takes_jumpRemarks (jump fused : Option Insn) (depth : Int) :
    (s.jumpRemarks jump fused depth).Takes LineStart LineStart := by
  refine takes_each (fun i => ?_) _
  rw [if_pos hcomments]
  exact takes_remark depth

/-- A condition is on the line of what depends on it, or above it. -/
theorem takes_ifCond {Q : List Piece → Prop} (depth : Int) (chained : Bool)
    (cond : Option String) (fused : Option Insn)
    (hsome : ∀ it, body = [.block [it]] → (s.item it 0).Takes LineStart Q)
    (hnone : (do
      put .opening; newline; s.branch (depth + 1) body; indent depth; put .closing;
      newline).Takes Anything Q) :
    (s.node depth chained (.ifCond cond body fused)).Takes LineStart Q := by
  unfold node
  refine (takes_jumpRemarks hcomments none fused depth).bind fun _ _ => ?_
  refine (takes_indent depth).bind fun _ _ => (takes_begun _).bind fun _ _ => ?_
  refine (takes_begun _).bind fun _ _ => (takes_ask _).bind fun it? hit => ?_
  cases it? with
  | none => exact Takes.after _ fun _ _ => hnone
  | some it =>
    obtain ⟨hbody, rfl⟩ := eq_block_of_fitsOnLine hit
    refine (takes_begun _).bind fun _ _ => ?_
    refine fun a ha written h => hsome it hbody a ha written ?_
    exact Begun.lineStart (newline_not_mem_condition cond) h

/-- With comments on, every node ends its line. -/
theorem takes_node (n : Node) :
    ∀ depth chained, (s.node depth chained n).Takes LineStart LineStart := by
  induction n using Node.induction with
  | block items => exact fun depth _ => takes_each (takes_item · depth) items
  | comment text =>
    intro depth chained
    unfold node only commentLine
    repeat' first | exact takes_newline | refine Takes.after _ fun _ _ => ?_ | split
  | goto | ifGoto | andIf | loop =>
    intro depth chained
    unfold node
    repeat' first | exact takes_newline | refine Takes.after _ fun _ _ => ?_ | split
  | ifCond cond body fused ih =>
    refine fun depth chained => takes_ifCond hcomments depth chained cond fused ?_ ?_
    · exact fun it _ => takes_item it 0
    · repeat' first | exact takes_newline | refine Takes.after _ fun _ _ => ?_
  | ifElse jump expected place next other slot fused ihnext ihother =>
    intro depth chained
    unfold node elseBlock
    repeat' first
      | exact takes_newline | refine takes_newline.bind fun _ _ => ?_
      | refine Takes.after _ fun _ _ => ?_ | split
    all_goals exact ihother _ (by simp) depth true

/-! ## Nodes -/

theorem branch_shows {nodes : List Node} (h : ∀ n ∈ nodes, s.NodeShown n)
    (he : e ∈ branchHeld nodes) (hw : s.Writes e) (depth : Int) :
    (s.branch depth nodes).Shows e.insn.addr := by
  induction nodes with
  | nil => cases he
  | cons n rest ih =>
    unfold branch
    rcases mem_append.mp he with he | he
    · exact (h n (.head _) depth false e he hw).left _
    · exact (takes_node hcomments n depth false).bind fun _ _ => ih (forall_mem_cons.mp h).2 he

theorem pseudo_shows (text : String) {parts : List Insn} {i : Insn} (hi : i ∈ parts) (depth : Int) :
    (Mips.pseudo s text parts depth).Shows i.addr :=
  (shows_each (fun _ => Mips.takes_remark depth) (Mips.remark_shows depth hcomments) hi).left _

theorem item_shows {it : Item} (he : e ∈ it.held) (hw : s.Writes e) (depth : Int) :
    (s.item it depth).Shows e.insn.addr := by
  cases it with
  | gap => cases he
  | insn i =>
    obtain rfl := mem_singleton.mp he
    exact s.insn_shows depth (hw.resolve_left Bool.false_ne_true)
  | pseudo text parts =>
    obtain ⟨i, hi, rfl⟩ := mem_map.mp he
    exact pseudo_shows hcomments text hi depth

theorem block_shows {items : List Item} (he : e ∈ items.flatMap Item.held) (hw : s.Writes e)
    (depth : Int) : (s.block items depth).Shows e.insn.addr := by
  obtain ⟨it, hit, he⟩ := mem_flatMap.mp he
  exact shows_each (takes_item · depth) (item_shows hcomments he hw depth) hit

theorem jumpRemarks_shows {i : Insn} (hi : i ∈ fused.toList ++ jump.toList) (depth : Int) :
    (s.jumpRemarks jump fused depth).Shows i.addr := by
  refine shows_each (fun _ => ?_) ?_ hi <;> rw [if_pos hcomments]
  · exact takes_remark depth
  · exact remark_shows depth hcomments

/-- The comparison and the jump of a condition are shown above it, and then the instruction in the
delay slot. -/
theorem condition_shows {slot : Option Insn} (he : e ∈ heldInCondition jump slot fused)
    (hw : s.Writes e) (depth : Int) (rest : Listing Unit) :
    (do s.jumpRemarks jump fused depth; s.delaySlot slot depth; rest).Shows e.insn.addr := by
  rcases mem_append.mp he with he | he
  · obtain ⟨i, hi, rfl⟩ := mem_map.mp he
    exact (jumpRemarks_shows hcomments hi depth).left _
  · obtain ⟨i, hi, rfl⟩ := mem_map.mp he
    refine (takes_jumpRemarks hcomments jump fused depth).bind fun _ _ => Takes.left ?_ _
    refine shows_each (fun _ => takes_insn depth) ?_ hi
    exact insn_shows depth (hw.resolve_left Bool.false_ne_true)

theorem ifCond_shown (cond : Option String) (fused : Option Insn)
    (h : ∀ n ∈ body, s.NodeShown n) : s.NodeShown (.ifCond cond body fused) := by
  intro depth chained e he hw
  rcases mem_append.mp he with he | he
  · obtain ⟨i, hi, rfl⟩ :=
      mem_map.mp ((mem_append.mp he).resolve_right not_mem_nil)
    unfold node
    exact (jumpRemarks_shows hcomments hi depth).left _
  · refine takes_ifCond hcomments depth chained cond fused ?_ ?_
    · rintro it rfl
      have hheld : e ∈ it.held := by simpa [branchHeld, Node.held] using he
      exact item_shows hcomments hheld hw 0
    · exact braces_shows (branch_shows hcomments h he hw (depth + 1)) depth newline

/-- A branch in two shows what is in its two parts, also where the second is written as an `else
if`, and where the first has nothing in it and the second takes its place. -/
theorem ifElse_shown (jump : Insn) (expected place : Int) {next other : List Node}
    (slot fused : Option Insn) (hpair : PairFused s.arch other) (hnext : ∀ n ∈ next, s.NodeShown n)
    (hother : ∀ n ∈ other, s.NodeShown n) :
    s.NodeShown (.ifElse jump expected place next other slot fused) := by
  intro depth chained e he hw
  unfold node
  rcases mem_append.mp he with he | he
  · exact condition_shows hcomments he hw depth _
  · refine Takes.after _ fun _ _ => Takes.after _ fun _ _ => Takes.after _ fun _ _ => ?_
    refine Takes.after _ fun _ _ => ?_
    split
    · rename_i hempty
      obtain rfl := List.isEmpty_iff.mp hempty
      refine Takes.after _ fun _ _ => Takes.after _ fun _ _ => ?_
      exact braces_shows (branch_shows hcomments hother he hw (depth + 1)) depth newline
    · refine Takes.after _ fun _ _ => Takes.after _ fun _ _ => ?_
      rcases mem_append.mp he with he | he
      · exact braces_shows (branch_shows hcomments hnext he hw (depth + 1)) depth _
      · refine Takes.after _ fun _ _ => Takes.after _ fun _ _ => Takes.after _ fun _ _ => ?_
        refine Takes.after _ fun _ _ => Takes.after _ fun _ _ => ?_
        have hbranch := branch_shows hcomments hother he hw (depth + 1)
        cases other with
        | nil => cases he
        | cons b rest =>
          cases rest with
          | nil =>
            have hb : e ∈ b.held := by simpa [branchHeld] using he
            dsimp only
            split
            · exact takes_newline.bind fun _ _ => hother b (.head _) depth true e hb hw
            · exact elseBlock_shows (hother b (.head _) (depth + 1) false e hb hw) depth
          | cons n rest =>
            cases rest with
            | nil =>
              dsimp only
              split
              · rename_i hlone
                exact takes_newline.bind fun _ _ =>
                  chained_shown hpair (hother n (by simp)) hlone he hw depth
              · refine elseBlock_shows ?_ depth
                rcases mem_append.mp he with he | he
                · exact (hother b (.head _) (depth + 1) false e he hw).left _
                · refine (takes_node hcomments b (depth + 1) false).bind fun _ _ => ?_
                  refine hother n (by simp) (depth + 1) false e ?_ hw
                  simpa [branchHeld] using he
            | cons m rest => exact elseBlock_shows hbranch depth

/-- With comments on, every instruction of a node that is not left out is shown. -/
theorem node_shown (n : Node) : n.Paired s.arch → s.NodeShown n := by
  induction n using Node.induction with
  | block items => intro _ depth chained e he hw; exact block_shows hcomments he hw depth
  | goto | comment => intro _ depth chained e he; cases he
  | ifGoto jump cond target slot fused | andIf jump cond expected slot fused =>
    intro _ depth chained e he hw
    exact condition_shows hcomments he hw depth _
  | ifCond cond body fused ih =>
    intro h
    exact ifCond_shown hcomments cond fused fun n hn => ih n hn (branchPaired_iff.mp h n hn)
  | ifElse jump expected place next other slot fused ihnext ihother =>
    intro h
    exact ifElse_shown hcomments jump expected place slot fused h.1
      (fun n hn => ihnext n hn (branchPaired_iff.mp h.2.1 n hn))
      fun n hn => ihother n hn (branchPaired_iff.mp h.2.2 n hn)
  | loop endless place body ih =>
    intro h depth chained e he hw
    have hbody := branch_shows hcomments (fun n hn => ih n hn (branchPaired_iff.mp h n hn)) he hw
      (depth + 1)
    unfold node
    refine Takes.after _ fun _ _ => ?_
    split <;> exact Takes.after _ fun _ _ => Takes.after _ fun _ _ =>
      braces_shows hbody depth newline

/-- A printed function shows the address of every instruction of its tree, if what is left out is
remarked upon. -/
theorem function_shows {tree : List Node} (h : Pass.Accounted s.arch tree s.marks.fused)
    (entry : Int) (he : e ∈ branchHeld tree) : (s.function entry tree).Shows e.insn.addr := by
  have hbranch : ∀ {e}, e ∈ branchHeld tree → s.Writes e →
      (s.branch 1 tree).Shows e.insn.addr := fun he hw =>
    branch_shows hcomments (fun n hn => node_shown hcomments n (branchPaired_iff.mp h.paired n hn))
      he hw 1
  have hshows : (s.branch 1 tree).Shows e.insn.addr := by
    by_cases hw : s.Writes e
    · exact hbranch he hw
    · obtain ⟨-, hfused⟩ := not_or.mp hw
      obtain ⟨r, hr, hremark, haddr⟩ := h.remarked _ (not_not.mp hfused)
      exact haddr ▸ hbranch hr (.inl hremark)
  unfold function
  refine Takes.after _ fun _ _ => Takes.after _ fun _ _ => ?_
  have hvariables : s.variableTypes.Takes LineStart LineStart := takes_each (fun _ =>
    Takes.after _ fun _ _ => Takes.after _ fun _ _ => Takes.after _ fun _ _ => takes_newline) _
  have hrest : (do
      put .opening; newline; s.variableTypes; s.branch 1 tree; put .closing;
      newline).Takes Anything (Shown e.insn.addr) :=
    Takes.after _ fun _ _ => takes_newline.bind fun _ _ => hvariables.bind fun _ _ => hshows.left _
  split
  · exact Takes.after _ fun _ _ => Takes.after _ fun _ _ => Takes.after _ fun _ _ => hrest
  · exact Takes.after _ fun _ _ => hrest

end

end Scene

/-! ## The tree of a function -/

namespace Act

variable {g : Graph} {σ σ' : Session} {tree : List Node} {nest : LoopNest}

theorem structureGraph_eq_ok (h : structureGraph g nest σ = .ok tree σ') :
    branchFlat tree ∧ σ'.marks.fused = σ.marks.fused ∧ σ'.program = σ.program := by
  unfold structureGraph at h
  rw [get_bind_apply] at h
  obtain ⟨p, σ₁, hp, h⟩ := bind_eq_ok.mp h
  obtain ⟨-, rfl⟩ := program_eq_ok.mp hp
  dsimp only at h
  cases hbuild : Structuring.build ⟨p.arch, g, nest, σ.options.furtherConditions⟩
      (Build.start σ.marks.entry σ.marks.labels ∅) with
  | ok _ b =>
    rw [hbuild] at h
    obtain ⟨_, σ₁, hmark, h⟩ := bind_eq_ok.mp h
    obtain ⟨draft, σ₂, hdraft, h⟩ := bind_eq_ok.mp h
    obtain ⟨rfl, rfl⟩ := pure_eq_ok.mp hdraft
    obtain ⟨tree', σ₂, htree, h⟩ := bind_eq_ok.mp h
    obtain ⟨hline, rfl⟩ := ask_eq_ok.mp htree
    obtain ⟨_, σ₃, htrace, h⟩ := bind_eq_ok.mp h
    obtain ⟨rfl, rfl⟩ := pure_eq_ok.mp h
    obtain ⟨console, rfl⟩ := trace_eq_ok htrace
    obtain rfl := mark_eq_ok hmark
    exact ⟨flat_bringGotosInLine (Draft.flat_tree _ _ _) hline, rfl, rfl⟩
  | error e b =>
    rw [hbuild] at h
    obtain ⟨_, σ₁, hmark, h⟩ := bind_eq_ok.mp h
    obtain ⟨draft, σ₂, hfail, h⟩ := bind_eq_ok.mp h
    cases hfail

theorem runPasses_eq_ok {succs : Edges} {passes : List Pass} {tree₀ : List Node}
    (h : runPasses succs passes tree₀ σ = .ok tree σ') :
    ∃ p r, σ.program = some p ∧ Pass.runAll p.arch p.symbols succs ⟨tree₀, σ.marks, σ.notes⟩
      passes = r ∧
      r.fault = none ∧ r.value.tree = tree ∧ r.value.marks = σ'.marks ∧ σ'.program = σ.program := by
  unfold runPasses at h
  rw [get_bind_apply] at h
  obtain ⟨p, σ₁, hread, h⟩ := bind_eq_ok.mp h
  obtain ⟨hp, rfl⟩ := program_eq_ok.mp hread
  obtain ⟨_, σ₂, hmodify, h⟩ := bind_eq_ok.mp h
  obtain ⟨hresult, rfl⟩ := ask_eq_ok.mp h
  obtain ⟨hfault, hvalue⟩ := Edited.result_eq_ok hresult
  cases hmodify
  exact ⟨p, _, hp, rfl, hfault, hvalue, rfl, rfl⟩

/-- What the analysis gives can be written: else parts are paired, and all that is left out is
remarked upon. -/
theorem buildTree_accounted (hfused : σ.marks.fused = []) (h : buildTree g nest σ = .ok tree σ') :
    ∃ p, σ'.program = some p ∧ Pass.Accounted p.arch tree σ'.marks.fused := by
  unfold buildTree at h
  obtain ⟨tree₁, σ₁, hstructure, h⟩ := bind_eq_ok.mp h
  obtain ⟨hflat, hsame, -⟩ := structureGraph_eq_ok hstructure
  obtain ⟨q, σ₂, hread, h⟩ := bind_eq_ok.mp h
  obtain ⟨hq, rfl⟩ := program_eq_ok.mp hread
  obtain ⟨tree₂, σ₂, hpasses, hafter⟩ := bind_eq_ok.mp h
  obtain ⟨p, r, hp, rfl, hfault, htree, hmarks, hprogram⟩ := runPasses_eq_ok hpasses
  obtain rfl : p = q := Option.some.inj (hp.symm.trans hq)
  have haccounted : Pass.Accounted p.arch tree₂ σ₂.marks.fused := by
    rw [← htree, ← hmarks]
    exact Pass.accounted_of_passes hflat (hsame.trans hfused) hfault
  obtain ⟨_, σ₃, htrace, hcolor⟩ := bind_eq_ok.mp hafter
  obtain ⟨console, hσ₃⟩ := trace_eq_ok htrace
  have hp₃ : σ₃.program = some p := by rw [hσ₃, ← hp, ← hprogram]
  have hmarks₃ : σ₃.marks = σ₂.marks := by rw [hσ₃]
  rw [← hmarks₃] at haccounted
  rw [get_bind_apply] at hcolor
  split at hcolor
  · -- Colouring looks at the tree only.
    obtain ⟨p', r', -, rfl, hfault', htree', hmarks', hprogram'⟩ := runPasses_eq_ok hcolor
    obtain ⟨hsametree, hsamefused⟩ := Pass.runAll_looking (by decide) hfault'
    rw [← htree', ← hmarks', hsametree, hsamefused]
    exact ⟨p, hprogram'.trans hp₃, haccounted⟩
  · obtain ⟨rfl, rfl⟩ := pure_eq_ok.mp hcolor
    exact ⟨p, hp₃, haccounted⟩

/-- Where the analysis of a function gives a tree, and the function is then written with comments
on, every machine instruction that the tree holds has its address in the column of some line,
provided that nothing was left out before the analysis. -/
theorem function_shows_every_insn {nest : LoopNest} (hfused : σ.marks.fused = [])
    (hbuild : buildTree g nest σ = .ok tree σ') {s : Scene} (hprogram : σ'.program = some s.program)
    (hmarks : s.marks = σ'.marks) (hcomments : s.options.comments = true) {entry : Int}
    (hwritten : (s.function entry tree).result = .ok ()) (color : Bool) :
    (s.function entry tree).render color = "\n".intercalate ((s.function entry tree).lines color) ∧
      ∀ e ∈ branchHeld tree, ∃ line ∈ (s.function entry tree).lines color,
        HasColumn color e.insn.addr line := by
  obtain ⟨p, hp, haccounted⟩ := buildTree_accounted hfused hbuild
  obtain rfl : p = s.program := Option.some.inj (hp.symm.trans hprogram)
  rw [← hmarks] at haccounted
  exact ⟨Listing.render_eq_lines color _, fun e he =>
    (Scene.function_shows hcomments haccounted entry he).exists_line hwritten color⟩

/-- Whether an analysis leaves out the instruction at an address where it stands, and the function
is then written with comments. -/
def leavesOut (g : Graph) (nest : LoopNest) (σ : Session) (addr : Int) : Bool :=
  match buildTree g nest σ with
  | .ok tree σ' =>
    σ'.program.any (fun p => ((sceneOf σ' p).function 0 tree).result.isOk) && σ'.options.comments &&
      σ'.marks.fused.contains addr && (branchHeld tree).any fun e =>
      !e.asRemark && e.insn.addr = addr
  | .error _ _ => false

theorem exists_of_leavesOut (h : leavesOut g nest σ addr = true) :
    ∃ tree σ' p, buildTree g nest σ = .ok tree σ' ∧ σ'.program = some p ∧
      ((sceneOf σ' p).function 0 tree).result = .ok () ∧ σ'.options.comments = true ∧
      addr ∈ σ'.marks.fused ∧ ∃ e ∈ branchHeld tree, e.asRemark = false ∧ e.insn.addr = addr := by
  unfold leavesOut at h
  split at h
  · rename_i tree σ' hbuild
    simp only [Bool.and_eq_true, Option.any_eq_true, contains_iff_mem, any_eq_true,
      Bool.not_eq_true', decide_eq_true_eq] at h
    obtain ⟨⟨⟨⟨p, hp, hok⟩, hcomments⟩, hfused⟩, e, he, hremark, haddr⟩ := h
    refine ⟨tree, σ', p, hbuild, hp, ?_, hcomments, hfused, e, he, hremark, haddr⟩
    cases hresult : ((sceneOf σ' p).function 0 tree).result with
    | ok u => rfl
    | error e =>
      rw [hresult] at hok
      cases hok
  · cases h

/-- The comparison of a register with a number. -/
def comparison (addr : Int) : Insn :=
  { OneByte.run.insn addr with
    opcode := "CMP"
    mnemonic := "cmp"
    operands := [⟨.register "eax" 0, 4, none⟩, ⟨.immediate addr, 4, none⟩] }

/-- Two conditional jumps with a comparison in front of each, the second pair where the first jump
leads to. -/
def twoComparisons : Program :=
  let p := OneByte.program [.run, .fork 4, .run, .jump 8, .run, .fork 7, .jump 8, .run, .ret]
  { p with decoder := { p.decoder with table := [comparison 0, comparison 4] ++ p.decoder.table } }

/-- The graph of the function at address zero and its loops, if nothing fails on the way. -/
def graphOf? (p : Program) : Option (Graph × LoopNest) := do
  let found ← match Graph.discover 0 p with
    | .ok g? _ => g?
    | .error _ _ => none
  let g ← (found.blocks p.arch).toOption
  let nest ← g.loopNest.toOption
  return (g, nest)

/-- The second pair becomes an `else if` in front of which the comparison is not written again; its
address is in the column of a remark. -/
theorem function_shows_every_insn_chained :
    ∃ (g : Graph) (nest : LoopNest) (tree : List Node) (σ' : Session) (p : Program),
      graphOf? twoComparisons = some (g, nest) ∧
      buildTree g nest { Session.start Options.standard ⟨[]⟩ with program := some twoComparisons } =
      .ok tree σ' ∧ ((sceneOf σ' p).function 0 tree).result = .ok () ∧ 4 ∈ σ'.marks.fused ∧
      ∃ e ∈ branchHeld tree, e.asRemark = false ∧ e.insn.addr = 4 ∧
        ∃ line ∈ ((sceneOf σ' p).function 0 tree).lines false,
          HasColumn false e.insn.addr line := by
  have hval : (graphOf? twoComparisons).map (fun r =>
      leavesOut r.1 r.2 { Session.start Options.standard ⟨[]⟩ with program := some twoComparisons }
        4) = some true := by
    decide +kernel
  obtain ⟨⟨g, nest⟩, hgraph, hout⟩ := Option.map_eq_some_iff.mp hval
  obtain ⟨tree, σ', p, hbuild, hp, hwritten, hcomments, hfused, e, he, hremark, haddr⟩ :=
    exists_of_leavesOut hout
  obtain ⟨-, hshown⟩ := function_shows_every_insn rfl hbuild hp rfl hcomments hwritten false
  exact ⟨g, nest, tree, σ', p, hgraph, hbuild, hwritten, hfused, e, he, hremark, haddr, hshown e he⟩

end Act

end Decompiler
