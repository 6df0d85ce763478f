import Decompiler.Proofs.FlagConditions
import Decompiler.Proofs.Immediates
import Decompiler.Proofs.KeptFile
/-!
# The targets of jumps, as they are shown and as they are followed

The flow graph follows a jump to its last operand, and a dump colours that address. A listing shows
the number of the first operand instead, which on MIPS may be the number of a register. For jumps of
one operand these are the same (`Scene.jump_target_shown`). A return that is repeated is shown in a
loop that has no end (`repeated_return_left_open`).
-/

namespace Decompiler

variable {i : Insn} {n : Int} {arch : Arch}

theorem Insn.last_of_target? (h : i.target? = some n) :
    ∃ op, i.operand (-1) = .ok op ∧ op.isImmediate = true ∧ op.number = n := by
  unfold Insn.target? at h
  split at h
  · rename_i op hop
    obtain ⟨himmediate, hnumber⟩ : op.isImmediate = true ∧ op.number = n := by simpa using h
    obtain ⟨front, hops⟩ := List.getLast?_eq_some_iff.mp hop
    exact ⟨op, by simp [Insn.operand, position?, hops], himmediate, hnumber⟩
  · cases h

/-! ## Flow graphs and dumps -/

/-- Every flow graph in which an instruction is a node goes on from there to an address, which is
the last of the node's successors. -/
def Insn.Followed (arch : Arch) (i : Insn) (n : Int) : Prop :=
  ∀ {p p' : Program} {entry : Int} {g : Graph} {a : Int} {rest : List Insn},
    p.Keyed → p.arch = arch →
    Graph.discover entry p = .ok (some g) p' → g.nodes.get? a = some (i :: rest) →
    (g.next a).getLast? = some n

theorem Insn.followed_of_target?
    (hjump : arch.isCondJump i = .ok true ∨ arch.isUncondJump i = .ok true)
    (htarget : i.target? = some n) : i.Followed arch n := by
  intro p p' entry g a rest hp harch hfound hnode
  subst harch
  have hway := (Graph.discover_classifies hp hfound).2.1.way a i rest hnode
  rcases hjump with hcond | huncond
  · exact hway.last hcond n htarget
  · have hops : i.operands ≠ [] := by
      intro hnil
      simp [Insn.target?, hnil] at htarget
    rw [hway.jump huncond hops, htarget]
    rfl

/-- The step of a dump's colouring gives an address a colour. -/
def Insn.Tinted (arch : Arch) (i : Insn) (n : Int) : Prop :=
  ∀ {σ : Session} {p : Program} (addr : Int), σ.program = some p → p.arch = arch →
    ∃ σ', Act.tintJump addr (some i) σ = .ok () σ' ∧ n ∈ σ'.marks.tints.keys

theorem Insn.tinted_of_target? (hjump : arch.isJump i = .ok true) (htarget : i.target? = some n) :
    i.Tinted arch n := by
  intro σ p addr hp harch
  subst harch
  obtain ⟨op, hlast, himmediate, rfl⟩ := Insn.last_of_target? htarget
  refine ⟨{ σ with marks := σ.marks.tint op.number }, ?_, ?_⟩
  · simp only [Act.tintJump]
    rw [bind_of_ok (Act.program_eq_ok.mpr ⟨hp, rfl⟩), bind_of_ok (Act.ask_eq_ok.mpr ⟨hjump, rfl⟩),
      if_pos rfl, bind_of_ok (Act.ask_eq_ok.mpr ⟨hlast, rfl⟩), if_pos himmediate]
    rfl
  · show _ ∈ (σ.marks.tint op.number).tints.keys
    unfold Marks.tint
    split
    · rename_i hcolor
      exact OrdMap.contains_iff.mp hcolor
    · exact OrdMap.mem_keys_insert.mpr (.inl rfl)

/-! ## Listings -/

open Listing

namespace Scene

variable {s : Scene} {first : Operand}

/-- The line of a jump with a number for its target. A repetition mark is shown as a loop on x86,
and the operands in front of the target only on MIPS. -/
def jumpLine (s : Scene) (i : Insn) (depth target : Int) : Listing Unit := do
  let looped := decide (s.arch = .x86) && i.repetition.isSome
  s.symbolLine i.addr depth
  only looped (X86.openRepetition depth)
  s.labelAndAddress i.addr (if looped then depth + 1 else depth) true
  s.bytes i
  write (i.mnemonic ++ " ")
  only (s.arch = .mips) (Mips.testedOperands s i)
  s.target target
  match if s.arch = .x86 then s.notes.get? i.addr else none with
  | some text =>
    ink .note " ; "
    ink .note text
  | none => pure ()
  newline

theorem insn_of_jump (hshown : i.addr ∉ s.marks.fused) (hjump : s.arch.isJump i = .ok true)
    (hret : s.arch.isRet i = .ok false) (hcall : s.arch.isCall i = false)
    (hfirst : i.operand 0 = .ok first) (hnumber : first.isImmediate = true ∨ s.arch = .mips)
    (htarget : i.target? = some n) (depth : Int) :
    s.insn i depth = s.jumpLine i depth first.number := by
  obtain ⟨last, hlast, himmediate, -⟩ := Insn.last_of_target? htarget
  unfold insn jumpLine
  cases harch : s.arch with
    (rw [harch] at hjump hret hcall hnumber
     simp only [Arch.isJump, Arch.isRet, Arch.isCall, Except.ok.injEq, or_false, reduceCtorEq]
       at hjump hret hcall hnumber)
  | x86 =>
    unfold X86.insn X86.body
    cases i.repetition <;> cases s.notes.get? i.addr <;>
      simp [X86.jump, hshown, hjump, hret, hcall, hfirst, hnumber, ask_ok_bind, only,
        assemblyComment] <;> rfl
  | arm =>
    simp [Arm.insn, Arm.jump, hshown, hjump, hret, hcall, hfirst, hnumber, ask_ok_bind, only]
    rfl
  | mips =>
    simp [Mips.insn, Mips.jump, hshown, hjump, hret, hcall, hfirst, hlast, himmediate,
      ask_ok_bind, only]
    rfl

/-- A jump whose last operand is an immediate is followed there in every flow graph, and a dump
colours that address. Wherever the jump is written, the number of its first operand stands for the
target. -/
theorem jump_target_shown (hjump : s.arch.isJump i = .ok true)
    (hfollowed : s.arch.isCondJump i = .ok true ∨ s.arch.isUncondJump i = .ok true)
    (hret : s.arch.isRet i = .ok false) (hcall : s.arch.isCall i = false)
    (hfirst : i.operand 0 = .ok first) (hnumber : first.isImmediate = true ∨ s.arch = .mips)
    (htarget : i.target? = some n) :
    i.Followed s.arch n ∧ i.Tinted s.arch n ∧
      (∀ depth, i.addr ∉ s.marks.fused → s.insn i depth = s.jumpLine i depth first.number) ∧
      (i.operands.length = 1 → first.number = n) := by
  refine ⟨Insn.followed_of_target? hfollowed htarget, Insn.tinted_of_target? hjump htarget,
    fun depth hshown => insn_of_jump hshown hjump hret hcall hfirst hnumber htarget depth,
      fun hone => ?_⟩
  obtain ⟨op, hop⟩ := List.length_eq_one_iff.mp hone
  obtain ⟨last, hlast, -, rfl⟩ := Insn.last_of_target? htarget
  rw [Insn.operand, hop] at hfirst hlast
  rw [← Except.ok.inj hfirst, ← Except.ok.inj hlast]

end Scene

/-- A conditional jump over one instruction. -/
def jumpOver : Program := OneByte.program [.fork 2, .run, .ret]

theorem jump_target_shown_fork :
    (∃ g p', Graph.discover 0 jumpOver = .ok (some g) p' ∧ (g.next 0).getLast? = some 2) ∧
      (∃ σ', Act.tintJump 0 (some ((OneByte.fork 2).insn 0))
        { Session.start Options.standard ⟨[]⟩ with program := some jumpOver } = .ok () σ' ∧
          2 ∈ σ'.marks.tints.keys) ∧
      (X86.plainScene.insn ((OneByte.fork 2).insn 0) 0).render false = "0x0: JE 0x2\n" := by
  have hcond : X86.plainScene.arch.isCondJump ((OneByte.fork 2).insn 0) = .ok true := rfl
  obtain ⟨hfollowed, htinted, hshown, -⟩ :=
    Scene.jump_target_shown rfl (.inl hcond) rfl rfl rfl (.inl rfl) rfl
  refine ⟨?_, htinted 0 rfl rfl, ?_⟩
  · have hval : (OneByte.graph? [.fork 2, .run, .ret]).map (fun g => g.nodes.get? 0) =
        some (some [(OneByte.fork 2).insn 0]) := by decide +kernel
    obtain ⟨g, hg, hnode⟩ := Option.map_eq_some_iff.mp hval
    obtain ⟨p', hfound⟩ := OneByte.discover_of_graph? hg
    exact ⟨g, p', hfound, hfollowed (OneByte.program_keyed [.fork 2, .run, .ret]) rfl hfound hnode⟩
  · rw [hshown 0 (by decide)]
    decide +kernel

/-- A branch on MIPS that compares two registers, the numbers of which are 10 and 11. -/
def branchOnEqual : Insn :=
  { OneByte.run.insn 0 with
    opcode := "BEQ"
    mnemonic := "beq"
    operands := [⟨.register "t0" 10, 4, none⟩, ⟨.register "t1" 11, 4, none⟩,
      ⟨.immediate 16, 4, none⟩] }

/-- What is known of a program without code on MIPS. -/
def mipsScene : Scene :=
  { X86.plainScene with program := { OneByte.program [] with target := ⟨.mips, .bits32, false⟩ } }

/-- Its target is 16, and the number of the first register is shown for it. -/
theorem register_shown_as_target :
    mipsScene.arch.isCondJump branchOnEqual = .ok true ∧ branchOnEqual.Followed .mips 16 ∧
      (mipsScene.insn branchOnEqual 0).render false = "0x0: beq $t0, $t1, 0xa\n" :=
  ⟨rfl, Insn.followed_of_target? (.inl rfl) rfl, by decide +kernel⟩

/-! ## Repeated returns -/

/-- A return with a repetition mark, which a processor ignores. -/
def repeatedReturn : Insn := { OneByte.ret.insn 0 with repetition := some .rep }

/-- The loop around it is opened and never closed, and so one brace of the function stays open. -/
theorem repeated_return_left_open :
    let l := X86.plainScene.function 0 [.block [.insn repeatedReturn]]
    l.result = .ok () ∧
      l.render false = "function 0x0 \x7b\n    while (!rcx)) \x7b\n        0x0: RET \n\x7d\n" ∧
      l.pieces.count .opening = 2 ∧ l.pieces.count .closing = 1 := by
  decide +kernel

end Decompiler
