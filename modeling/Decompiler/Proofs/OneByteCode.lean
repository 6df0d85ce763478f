import Decompiler.Flow.Blocks
import Decompiler.Proofs.Discovery
import Decompiler.Tree.Gotos
import Decompiler.Tree.Structuring
/-!
# Programs of one-byte instructions

The smallest x86 programs that show a shape of control flow: a raw file at address zero in which
every instruction is one byte long, so that the instruction number `k` stands at address `k`. Their
flow graphs and trees can be computed (`graph?`, `structured?`), which gives the facts that
discovery and structuring return them.
-/

namespace Decompiler

/-- What a one-byte instruction does. -/
inductive OneByte where
  /-- Runs on into the next instruction. -/
  | run
  | jump (target : Int)
  /-- Jumps or runs on. -/
  | fork (target : Int)
  | ret
  deriving DecidableEq, Repr

namespace OneByte

variable {ops : List OneByte}

/-- The jump target as an operand list. -/
def operands : OneByte → List Operand
  | jump t | fork t => [⟨.immediate t, 4, none⟩]
  | run | ret => []

/-- The name of the operation. -/
def opcode : OneByte → String
  | run => "NOP"
  | jump _ => "JMP"
  | fork _ => "JE"
  | ret => "RET"

/-- The instruction at an address. -/
def insn (op : OneByte) (addr : Int) : Insn where
  addr := addr
  bytes := [0x90]
  opcode := op.opcode
  mnemonic := op.opcode
  opText := ""
  operands := op.operands
  jumpGroup := op matches .jump _ | .fork _
  callGroup := false
  retGroup := op matches .ret
  repetition := none
  condition := ""
  setsFlags := false
  readsPc := false

/-- The program that consists of the given instructions, none of them decoded yet. -/
def program (ops : List OneByte) : Program where
  image := .raw ⟨"x86", 0, false, ops.map fun _ => 0x90⟩
  target := ⟨.x86, .bits32, false⟩
  decoder := ⟨some .x86, ops.zipIdx.map fun e => e.1.insn e.2⟩
  code := ∅
  symbols := Symbols.empty

theorem program_definite (ops : List OneByte) : (program ops).image.Definite := trivial

theorem program_keyed (ops : List OneByte) : (program ops).Keyed := by
  intro addr i h
  cases h

theorem program_arch (ops : List OneByte) : (program ops).arch = .x86 := rfl

theorem program_code (ops : List OneByte) (addr : Int) (i : Insn)
    (h : (program ops).code.get? addr = some i) : (program ops).decode? addr = some i := by
  cases h

/-- The flow graph from the first instruction on, if discovery gives one. -/
def graph? (ops : List OneByte) : Option Graph :=
  match Graph.discover 0 (program ops) with
  | .ok g? _ => g?
  | .error _ _ => none

theorem discover_of_graph? {g : Graph} (h : graph? ops = some g) :
    ∃ p', Graph.discover 0 (program ops) = .ok (some g) p' := by
  unfold graph? at h
  split at h
  · rename_i g? p' heq
    rw [heq, h]
    exact ⟨p', rfl⟩
  · cases h

theorem toOption_eq_some {α : Type} {e : Except Fault α} {a : α} (h : e.toOption = some a) :
    e = .ok a := by
  cases e with
  | error f => cases h
  | ok b => exact congrArg _ (Option.some.inj h)

/-- What is known of the loops of a function: the graph in blocks, the loops found in it, and their
nest. -/
structure Nested where
  graph : Graph
  tables : LoopTables
  nest : LoopNest

/-- The loops of the function from the first instruction on, if nothing fails on the way. -/
def nested? (ops : List OneByte) : Option Nested := do
  let g₀ ← graph? ops
  let g ← (g₀.blocks .x86).toOption
  let tables ← g.loops.toOption
  let nest ← g.loopNest.toOption
  return ⟨g, tables, nest⟩

theorem exists_of_nested? {r : Nested} (h : nested? ops = some r) :
    ∃ p' g₀, Graph.discover 0 (program ops) = .ok (some g₀) p' ∧ g₀.blocks .x86 = .ok r.graph ∧
      r.graph.loops = .ok r.tables ∧ r.graph.loopNest = .ok r.nest := by
  simp only [nested?, Option.bind_eq_bind, Option.bind_eq_some_iff] at h
  obtain ⟨g₀, hg₀, g, hg, tables, htables, nest, hnest, h⟩ := h
  obtain ⟨p', hp'⟩ := discover_of_graph? hg₀
  obtain rfl := Option.some.inj h
  exact ⟨p', g₀, hp', toOption_eq_some hg, toOption_eq_some htables, toOption_eq_some hnest⟩

/-- What the structuring of a function gives: the graph in blocks, its loops, the state at the end,
and the tree. -/
structure Structured where
  graph : Graph
  nest : LoopNest
  build : Build
  tree : List Node

/-- The function from the first instruction on, structured, if nothing fails on the way. -/
def structured? (ops : List OneByte) (further : Bool) : Option Structured := do
  let g₀ ← graph? ops
  let g ← (g₀.blocks .x86).toOption
  let nest ← g.loopNest.toOption
  match Structuring.build ⟨.x86, g, nest, further⟩ (Build.start 0 ∅ ∅) with
  | .error _ _ => none
  | .ok _ s =>
    (bringGotosInLine g.uncondJumps g.succs s.draft.toTree).toOption.map fun tree =>
      ⟨g, nest, s, tree⟩

theorem exists_of_structured? {further : Bool} {r : Structured}
    (h : structured? ops further = some r) :
    ∃ p' g₀, Graph.discover 0 (program ops) = .ok (some g₀) p' ∧ g₀.blocks .x86 = .ok r.graph ∧
      r.graph.loopNest = .ok r.nest ∧
      Structuring.build ⟨.x86, r.graph, r.nest, further⟩ (Build.start 0 ∅ ∅) = .ok () r.build ∧
      bringGotosInLine r.graph.uncondJumps r.graph.succs r.build.draft.toTree = .ok r.tree := by
  simp only [structured?, Option.bind_eq_bind, Option.bind_eq_some_iff] at h
  obtain ⟨g₀, hg₀, g, hg, nest, hnest, h⟩ := h
  obtain ⟨p', hp'⟩ := discover_of_graph? hg₀
  split at h
  · cases h
  · rename_i u s hs
    obtain ⟨tree, htree, rfl⟩ := Option.map_eq_some_iff.mp h
    exact ⟨p', g₀, hp', toOption_eq_some hg, toOption_eq_some hnest, hs, toOption_eq_some htree⟩

end OneByte

end Decompiler
