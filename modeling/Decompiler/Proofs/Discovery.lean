import Decompiler.Flow.Discovery
import Decompiler.Proofs.Decoding
import Mathlib.Data.List.Count
import Mathlib.Data.List.Perm.Subperm
import Mathlib.Logic.Relation
/-!
# The flow graphs that discovery gives are well formed

For every machine, a graph that discovery gives is well formed: nodes are listed under the address
of their first instruction, every successor is a node, predecessors are the converse of successors
with multiplicity, and every node is reachable from the entry (`discover_wellFormed`).

The invariant is the one of a worklist: a successor of a node is a node or still to be visited.
-/

namespace Decompiler

open List OrdMap

variable {g : Graph} {a b : Int} {arch : Arch} {u : Bool} {d' d : Discovery} {slot : List Insn}

/-! ## Graphs -/

namespace Graph

/-- There is an edge from one address to another. -/
def Edge (g : Graph) (a b : Int) : Prop := b ∈ g.next a

/-- The entry leads to an address. -/
def Reachable (g : Graph) (a : Int) : Prop := Relation.ReflTransGen g.Edge g.entry a

/-- A graph as the analyses expect it. -/
structure WellFormed (g : Graph) : Prop where
  /-- A node stands under the address of its first instruction. -/
  heads : ∀ a l, g.nodes.get? a = some l → ∃ i rest, l = i :: rest ∧ i.addr = a
  nodup : g.nodes.keys.Nodup
  entry_mem : g.entry ∈ g.nodes.keys
  /-- Only nodes have successors; these are one or two. -/
  succs : ∀ a l, g.succs.get? a = some l → a ∈ g.nodes.keys ∧ l ≠ [] ∧ l.length ≤ 2
  /-- Every successor is a node. -/
  closed : ∀ a b, g.Edge a b → b ∈ g.nodes.keys
  /-- Predecessors are the converse of successors, and are listed only where there are some. -/
  converse : ∀ a b, (g.preds.getD b []).count a = (g.next a).count b
  preds : ∀ b l, g.preds.get? b = some l → l ≠ []
  reachable : ∀ a, a ∈ g.nodes.keys → g.Reachable a

/-- What the machine says about the first instructions of the nodes: the questions whether they jump
have answers, only conditional jumps have two successors, and the direct and indirect jumps without
condition are listed. -/
structure Classified (arch : Arch) (g : Graph) : Prop where
  jump : ∀ a i rest, g.nodes.get? a = some (i :: rest) → ∃ j, arch.isJump i = .ok j
  fork : ∀ a i rest, g.nodes.get? a = some (i :: rest) → 2 ≤ (g.next a).length →
    arch.isCondJump i = .ok true
  uncond : ∀ a i rest, g.nodes.get? a = some (i :: rest) →
    ∃ u, arch.isUncondJump i = .ok u ∧ (a ∈ g.uncondJumps ↔ u = true ∧ i.operands ≠ [])

/-- A node that leads on leads to one other or to two. -/
theorem WellFormed.one_or_two (h : g.WellFormed) {l : List Int} (hl : g.succs.get? a = some l) :
    (∃ v, l = [v]) ∨ ∃ x y, l = [x, y] := by
  obtain ⟨-, hne, hlen⟩ := h.succs a l hl
  rcases l with _ | ⟨x, _ | ⟨y, _ | ⟨z, l⟩⟩⟩
  · exact absurd rfl hne
  · exact .inl ⟨x, rfl⟩
  · exact .inr ⟨x, y, rfl⟩
  · simp only [length_cons] at hlen
    omega

theorem mem_preds_iff (h : g.WellFormed) : a ∈ g.preds.getD b [] ↔ g.Edge a b := by
  rw [← count_pos_iff, h.converse a b, count_pos_iff]
  rfl

/-- The predecessors that are listed for a node. -/
theorem mem_iff_edge (h : g.WellFormed) {l : List Int} (hl : g.preds.get? b = some l) :
    a ∈ l ↔ g.Edge a b := by
  rw [← mem_preds_iff h, getD_of_get? hl]

end Graph

/-! ## Adding a node -/

namespace Discovery

variable {next todo : List Int} {d : Discovery}

/-- `d'` is `d` with one more node, which has the given successors; these are to be visited next. -/
structure Extends (d : Discovery) (i : Insn) (slot : List Insn) (next : List Int) (d' : Discovery) :
    Prop where
  entry : d'.graph.entry = d.graph.entry
  nodes : d'.graph.nodes = d.graph.nodes.insert i.addr (i :: slot)
  succs : d'.graph.succs = if next = [] then d.graph.succs else d.graph.succs.insert i.addr next
  preds : ∀ a b, (d'.graph.preds.getD b []).count a =
    (d.graph.preds.getD b []).count a + if a = i.addr then next.count b else 0
  listed : ∀ b l, d'.graph.preds.get? b = some l → l ≠ [] ∨ d.graph.preds.get? b = some l
  rest : d'.rest = next ++ d.rest
  short : next.length ≤ 2

/-- The successors are those of the instruction, where it has one: a jump without a condition goes
to its target, and any other instruction to the next one. The last successor of a conditional jump
is its target. -/
structure Way (arch : Arch) (i : Insn) (next : List Int) : Prop where
  jump : arch.isUncondJump i = .ok true → i.operands ≠ [] → next = i.target?.toList
  run : ¬ (arch.isUncondJump i = .ok true ∧ i.operands ≠ []) → ∀ v, next = [v] → v = i.next
  last : arch.isCondJump i = .ok true → ∀ t, i.target? = some t → next.getLast? = some t

variable {i : Insn}

theorem Way.of_run (huncond : arch.isUncondJump i = .ok u) (hno : ¬ (u = true ∧ i.operands ≠ []))
    (h : ∀ v, next = [v] → v = i.next)
    (hlast : arch.isCondJump i = .ok true → ∀ t, i.target? = some t → next.getLast? = some t) :
    Way arch i next where
  jump hu hops := absurd ⟨Except.ok.inj (huncond.symm.trans hu), hops⟩ hno
  run _ := h
  last := hlast

/-- `d'` is `d` with one more node, as the machine would have it. -/
structure Visits (arch : Arch) (d : Discovery) (i : Insn) (slot : List Insn) (next : List Int)
    (d' : Discovery) : Prop extends Extends d i slot next d' where
  jump : ∃ j, arch.isJump i = .ok j
  fork : 2 ≤ next.length → arch.isCondJump i = .ok true
  uncond : ∃ u, arch.isUncondJump i = .ok u ∧
    d'.graph.uncondJumps =
      if u = true ∧ i.operands ≠ [] then d.graph.uncondJumps.insert i.addr else d.graph.uncondJumps
  way : Way arch i next

theorem addPred_count (g : Graph) (b p a c : Int) :
    ((g.addPred b p).preds.getD c []).count a =
      (g.preds.getD c []).count a + if a = p then [b].count c else 0 := by
  simp only [Graph.addPred, getD_upsert]
  by_cases hb : b = c
  · by_cases hp : a = p
    · simp [hb, hp]
    · have hp' : ¬ p = a := fun h => hp h.symm
      simp [hb, hp, hp', count_append]
  · simp [hb]

theorem addPred_listed (g : Graph) (b p c : Int) (l : List Int)
    (h : (g.addPred b p).preds.get? c = some l) : l ≠ [] ∨ g.preds.get? c = some l := by
  rcases of_get?_insert h with ⟨-, rfl⟩ | h
  · exact .inl (by simp)
  · exact .inr h

theorem extends_addNode (d : Discovery) (i : Insn) (slot : Option Insn) (cond uncond : List Int) :
    d.Extends i slot.toList []
      ⟨{ d.graph.addNode i slot with condJumps := cond, uncondJumps := uncond }, d.rest⟩ where
  entry := rfl
  nodes := rfl
  succs := rfl
  preds a b := by simp [Graph.addNode]
  listed b l h := .inr h
  rest := rfl
  short := by simp

theorem extends_addStep (d : Discovery) (i : Insn) (n : Int) (slot : Option Insn)
    (cond uncond : List Int) :
    d.Extends i slot.toList [n]
      ⟨{ d.graph.addStep i n slot with condJumps := cond, uncondJumps := uncond },
        n :: d.rest⟩ where
  entry := rfl
  nodes := rfl
  succs := rfl
  preds a b := addPred_count _ n i.addr a b
  listed b l h := addPred_listed _ n i.addr b l h
  rest := rfl
  short := by simp

theorem extends_addFork (d : Discovery) (i : Insn) (n t : Int) (slot : Option Insn)
    (cond uncond : List Int) :
    d.Extends i slot.toList [n, t]
      ⟨{ d.graph.addFork i n t slot with condJumps := cond, uncondJumps := uncond },
        n :: t :: d.rest⟩ where
  entry := rfl
  nodes := rfl
  succs := rfl
  preds a b := by
    simp only [Graph.addFork]
    rw [addPred_count, addPred_count]
    by_cases ha : a = i.addr
    · simp only [ha, if_true, count_cons, count_nil]
      simp only [Graph.addNode]
      omega
    · simp [ha, Graph.addNode]
  listed b l h := by
    rcases addPred_listed _ n i.addr b l h with h | h
    · exact .inl h
    · exact addPred_listed _ t i.addr b l h
  rest := rfl
  short := by simp

/-! ## The worklist invariant -/

/-- What holds of a discovery under way: it is a well-formed graph but for the addresses still to
visit. -/
structure Sound (d : Discovery) (todo : List Int) : Prop where
  heads : ∀ a l, d.graph.nodes.get? a = some l → ∃ i rest, l = i :: rest ∧ i.addr = a
  nodup : d.graph.nodes.keys.Nodup
  entry_mem : d.graph.entry ∈ d.graph.nodes.keys ∨ d.graph.entry ∈ todo
  succs : ∀ a l, d.graph.succs.get? a = some l → a ∈ d.graph.nodes.keys ∧ l ≠ [] ∧ l.length ≤ 2
  closed : ∀ a b, d.graph.Edge a b → b ∈ d.graph.nodes.keys ∨ b ∈ todo
  converse : ∀ a b, (d.graph.preds.getD b []).count a = (d.graph.next a).count b
  preds : ∀ b l, d.graph.preds.get? b = some l → l ≠ []
  reachable : ∀ a, a ∈ d.graph.nodes.keys ∨ a ∈ todo → d.graph.Reachable a

theorem Sound.start (entry : Int) : Sound ⟨Graph.start entry, []⟩ [entry] where
  heads a l h := by cases h
  nodup := nodup_nil
  entry_mem := .inr (.head _)
  succs a l h := by cases h
  closed a b h := by cases h
  converse a b := rfl
  preds b l h := by cases h
  reachable a h := by
    rcases h with h | h
    · cases h
    · rw [mem_singleton.mp h]
      exact Relation.ReflTransGen.refl

theorem Sound.wellFormed (h : d.Sound []) : d.graph.WellFormed :=
  { h with
    entry_mem := by simpa using h.entry_mem
    closed := fun a b hab => by simpa using h.closed a b hab
    reachable := fun a ha => h.reachable a (.inl ha) }

/-- An address that is a node already need not be visited. -/
theorem Sound.skip (h : d.Sound (a :: todo)) (ha : a ∈ d.graph.nodes.keys) : d.Sound todo := by
  have hdone : ∀ b, b ∈ d.graph.nodes.keys ∨ b ∈ a :: todo → b ∈ d.graph.nodes.keys ∨ b ∈ todo := by
    rintro b (hb | hb)
    · exact .inl hb
    · refine (mem_cons.mp hb).imp_left ?_
      rintro rfl
      exact ha
  exact { h with
    entry_mem := hdone _ h.entry_mem
    closed := fun b c hbc => hdone c (h.closed b c hbc)
    reachable := fun b hb => h.reachable b (hb.imp_right (mem_cons_of_mem a)) }

/-- The invariant is about the graph and a list of addresses, whichever list the discovery itself
carries. -/
theorem Sound.graph_only {rest : List Int} (h : d.Sound todo) : Sound { d with rest } todo :=
  { h with }

theorem Sound.next_of_not_mem (h : d.Sound todo) (ha : a ∉ d.graph.nodes.keys) :
    d.graph.next a = [] := by
  refine getD_of_not_mem fun hk => ?_
  obtain ⟨l, hl⟩ := mem_keys.mp hk
  exact ha (h.succs a l hl).1

theorem Extends.next_eq (hx : d.Extends i slot next d') (hnew : d.graph.next i.addr = [])
    (a : Int) : d'.graph.next a = if a = i.addr then next else d.graph.next a := by
  simp only [Graph.next] at hnew ⊢
  rw [hx.succs]
  by_cases hn : next = []
  · by_cases ha : a = i.addr
    · simp [hn, ha, hnew]
    · simp [hn, ha]
  · rw [if_neg hn, getD_insert]
    simp only [eq_comm]

/-- Visiting a new address keeps the invariant: its successors take its place among the addresses to
visit. -/
theorem Sound.extend (h : d.Sound (i.addr :: d.rest))
    (hnew : i.addr ∉ d.graph.nodes.keys) (hx : d.Extends i slot next d') : d'.Sound d'.rest := by
  have hnext := hx.next_eq (h.next_of_not_mem hnew)
  have hkeys : ∀ a, a ∈ d'.graph.nodes.keys ↔ a = i.addr ∨ a ∈ d.graph.nodes.keys := by
    intro a
    rw [hx.nodes]
    exact mem_keys_insert
  have hedge : ∀ a b, d.graph.Edge a b → d'.graph.Edge a b := by
    intro a b hab
    have hne : a ≠ i.addr := by
      rintro rfl
      rw [Graph.Edge, h.next_of_not_mem hnew] at hab
      cases hab
    rwa [Graph.Edge, hnext, if_neg hne]
  have hreach : ∀ a, d.graph.Reachable a → d'.graph.Reachable a := by
    intro a ha
    rw [Graph.Reachable, hx.entry]
    exact Relation.ReflTransGen.mono hedge _ _ ha
  have hkept : ∀ a, a ∈ d.graph.nodes.keys ∨ a ∈ i.addr :: d.rest → a ∈ d'.graph.nodes.keys ∨
      a ∈ d'.rest := by
    intro a ha
    rw [hkeys, hx.rest]
    rcases ha with ha | ha
    · exact .inl (.inr ha)
    · exact (mem_cons.mp ha).imp .inl (mem_append_right _)
  refine ⟨?_, ?_, hx.entry ▸ hkept _ h.entry_mem, ?_, ?_, ?_, ?_, ?_⟩
  · intro a l hl
    rw [hx.nodes] at hl
    rcases of_get?_insert hl with ⟨ha, rfl⟩ | hl
    · exact ⟨i, slot, rfl, ha⟩
    · exact h.heads a l hl
  · rw [hx.nodes]
    exact nodup_keys_insert h.nodup _ _
  · intro a l hl
    rw [hx.succs] at hl
    rw [hkeys]
    split at hl
    · obtain ⟨ha, hl⟩ := h.succs a l hl
      exact ⟨.inr ha, hl⟩
    · rename_i hne
      rcases of_get?_insert hl with ⟨ha, rfl⟩ | hl
      · exact ⟨.inl ha.symm, hne, hx.short⟩
      · obtain ⟨ha, hl⟩ := h.succs a l hl
        exact ⟨.inr ha, hl⟩
  · intro a b hab
    rw [Graph.Edge, hnext] at hab
    split at hab
    · exact .inr (hx.rest ▸ mem_append_left _ hab)
    · exact hkept b (h.closed a b hab)
  · intro a b
    rw [hx.preds, h.converse, hnext]
    split
    · rename_i ha
      rw [ha, h.next_of_not_mem hnew]
      simp
    · rfl
  · intro b l hl
    rcases hx.listed b l hl with hl | hl
    · exact hl
    · exact h.preds b l hl
  · intro a ha
    rw [hkeys, hx.rest] at ha
    rcases ha with (ha | ha) | ha
    · exact hreach a (h.reachable a (.inr (by simp [ha])))
    · exact hreach a (h.reachable a (.inl ha))
    · rcases mem_append.mp ha with ha | ha
      · have hi : d'.graph.Reachable i.addr := hreach _ (h.reachable _ (.inr (.head _)))
        refine hi.tail ?_
        rwa [Graph.Edge, hnext, if_pos rfl]
      · exact hreach a (h.reachable a (.inr (.tail _ ha)))

end Discovery

/-! ## What the machine says -/

variable {arch : Arch} {i : Insn} {p p' : Program} {entry : Int} {g : Graph}

theorem Arch.isJump_of_uncond (h : arch.isUncondJump i = .ok true) :
    ∃ j, arch.isJump i = .ok j := by
  cases arch with
  | x86 => exact ⟨_, rfl⟩
  | arm =>
    simp only [isUncondJump, Arm.isUncondJump] at h
    obtain ⟨j, hj, -⟩ := Except.bind_eq_ok.mp h
    exact ⟨j, hj⟩
  | mips =>
    have hu : Mips.isUncondJump i = true := by simpa [isUncondJump] using h
    exact ⟨true, by simp [isJump, Mips.isJump, hu, pure, Except.pure]⟩

theorem Arch.isJump_of_cond (h : arch.isCondJump i = .ok true) : arch.isJump i = .ok true := by
  cases arch with
  | x86 =>
    have hc : i.jumpGroup = true ∧ i.opcode ≠ "JMP" := by simpa [isCondJump, X86.isCondJump] using h
    simp [isJump, hc.1]
  | arm =>
    simp only [isCondJump, Arm.isCondJump] at h
    obtain ⟨j, hj, h⟩ := Except.bind_eq_ok.mp h
    have hc : j = true ∧ i.condition ≠ "AL" := by simpa [pure, Except.pure] using h
    rw [isJump, hj, hc.1]
  | mips =>
    have hc : Mips.isCondJump i = true := by simpa [isCondJump] using h
    simp [isJump, Mips.isJump, hc, pure, Except.pure]

theorem Arch.isJump_of_ret {r : Bool} (h : arch.isRet i = .ok r) : ∃ j, arch.isJump i = .ok j := by
  cases arch with
  | x86 => exact ⟨_, rfl⟩
  | arm =>
    simp only [isRet, Arm.isRet] at h
    obtain ⟨op, hop, -⟩ := Except.bind_eq_ok.mp h
    simp only [isJump, Arm.isJump, hop, bind, Except.bind, pure, Except.pure]
    split
    · exact ⟨_, rfl⟩
    · split <;> exact ⟨_, rfl⟩
  | mips =>
    simp only [isJump, Mips.isJump]
    split
    · exact ⟨_, rfl⟩
    · split
      · rename_i hjr
        simp only [isRet, Mips.isRet, if_pos hjr] at h
        obtain ⟨op, hop, -⟩ := Except.bind_eq_ok.mp h
        exact ⟨_, by rw [hop]; rfl⟩
      · exact ⟨_, rfl⟩

/-- The graph so far is classified, no other jumps are listed than those of its nodes, each node
goes on as its instruction does, and on machines without delay slots every node is one
instruction. -/
structure Discovery.Classifies (arch : Arch) (d : Discovery) : Prop where
  classified : d.graph.Classified arch
  listed : ∀ a ∈ d.graph.uncondJumps, a ∈ d.graph.nodes.keys
  way : ∀ a i rest, d.graph.nodes.get? a = some (i :: rest) → Discovery.Way arch i (d.graph.next a)
  single : arch ≠ .mips → ∀ a l, d.graph.nodes.get? a = some l → ∃ i, l = [i]

theorem Discovery.Classifies.start (arch : Arch) (entry : Int) :
    Classifies arch ⟨Graph.start entry, []⟩ where
  classified := by constructor <;> (intro a i rest h; cases h)
  listed a h := by cases h
  way a i rest h := by cases h
  single _ a l h := by cases h

/-- A visit keeps the graph classified. -/
theorem Discovery.Classifies.extend {next : List Int} (h : d.Classifies arch)
    (hs : d.Sound (i.addr :: d.rest)) (hnew : i.addr ∉ d.graph.nodes.keys)
    (hx : d.Visits arch i slot next d') (hslot : arch ≠ .mips → slot = []) :
    d'.Classifies arch := by
  have hnext := hx.next_eq (hs.next_of_not_mem hnew)
  have hold : ∀ a l, a ≠ i.addr → d'.graph.nodes.get? a = some l →
      d.graph.nodes.get? a = some l := by
    intro a l ha hl
    rwa [hx.nodes, OrdMap.get?_insert, if_neg (Ne.symm ha)] at hl
  have hself : ∀ j rest, d'.graph.nodes.get? i.addr = some (j :: rest) → j = i := by
    intro j rest hl
    rw [hx.nodes, OrdMap.get?_insert, if_pos rfl] at hl
    exact (cons.inj (Option.some.inj hl)).1.symm
  obtain ⟨u, hu, huncond⟩ := hx.uncond
  have hmem : ∀ a, a ∈ d'.graph.uncondJumps ↔
      a ∈ d.graph.uncondJumps ∨ (a = i.addr ∧ u = true ∧ i.operands ≠ []) := by
    intro a
    rw [huncond]
    split
    · rename_i hc
      simp [mem_insert_iff, hc.1, hc.2, or_comm]
    · rename_i hc
      simp [hc]
  refine ⟨⟨fun a j rest hl => ?_, fun a j rest hl hlen => ?_, fun a j rest hl => ?_⟩,
    fun a ha => ?_, fun a j rest hl => ?_, fun harch a l hl => ?_⟩
  · by_cases ha : a = i.addr
    · subst ha
      rw [hself j rest hl]
      exact hx.jump
    · exact h.classified.jump a j rest (hold a _ ha hl)
  · rw [hnext] at hlen
    by_cases ha : a = i.addr
    · subst ha
      rw [if_pos rfl] at hlen
      rw [hself j rest hl]
      exact hx.fork hlen
    · rw [if_neg ha] at hlen
      exact h.classified.fork a j rest (hold a _ ha hl) hlen
  · by_cases ha : a = i.addr
    · subst ha
      rw [hself j rest hl]
      refine ⟨u, hu, (hmem _).trans ⟨fun hm => ?_, fun hm => .inr ⟨rfl, hm⟩⟩⟩
      rcases hm with hm | ⟨-, hm⟩
      · exact (hnew (h.listed _ hm)).elim
      · exact hm
    · obtain ⟨v, hv, hiff⟩ := h.classified.uncond a j rest (hold a _ ha hl)
      refine ⟨v, hv, (hmem a).trans ?_⟩
      simp [ha, hiff]
  · rw [hx.nodes, mem_keys_insert]
    rcases (hmem a).mp ha with ha | ⟨ha, -⟩
    · exact .inr (h.listed a ha)
    · exact .inl ha
  · rw [hnext]
    by_cases ha : a = i.addr
    · subst ha
      rw [hself j rest hl, if_pos rfl]
      exact hx.way
    · rw [if_neg ha]
      exact h.way a j rest (hold a _ ha hl)
  · by_cases ha : a = i.addr
    · rw [hx.nodes, OrdMap.get?_insert, if_pos ha.symm, hslot harch] at hl
      exact ⟨i, (Option.some.inj hl).symm⟩
    · exact h.single harch a l (hold a l ha hl)

/-! ## Any machine -/

namespace Program

/-- The code decoded so far is kept by address. -/
def Keyed (p : Program) : Prop := ∀ addr i, p.code.get? addr = some i → i.addr = addr

/-- `p'` is `p` after some look-ups: for the same machine, and with the code kept by address. -/
structure Follows (p p' : Program) : Prop where
  keyed : p'.Keyed
  arch : p'.arch = p.arch

variable {p p' : Program} {addr : Int}

theorem Follows.refl (h : p.Keyed) : Follows p p := ⟨h, rfl⟩

theorem Follows.trans {p'' : Program} (h : Follows p p') (h' : Follows p' p'') : Follows p p'' :=
  ⟨h'.keyed, h'.arch.trans h.arch⟩

theorem run_head {d : Decoder} {fuel : Nat} {room : Int} {i : Insn} {rest : List Insn}
    (h : d.run fuel addr room = i :: rest) : i.addr = addr := by
  cases fuel with
  | zero => cases h
  | succ fuel =>
    unfold Decoder.run at h
    cases hi : d.insnAt? addr with
    | none => simp [hi] at h
    | some j =>
      simp only [hi] at h
      split at h
      · rw [← (cons.inj h).1]
        exact Decoder.insnAt?_addr hi
      · cases h

theorem insnAt_keyed (h : p.Keyed) (addr : Int) :
    Follows p (p.insnAt addr none).2 ∧ ∀ i, (p.insnAt addr none).1 = some i → i.addr = addr := by
  have hspan : Follows p (p.span addr).2 := ⟨h, rfl⟩
  have hread : Follows p ((p.span addr).2.read addr batch).2 := ⟨h, rfl⟩
  simp only [insnAt, Option.any_none, Bool.false_eq_true, if_false]
  cases (p.span addr).1 with
  | none => exact ⟨hspan, fun i hi => by cases hi⟩
  | some s =>
    cases hcode : (p.span addr).2.code.get? addr with
    | some i => exact ⟨hspan, fun j hj => Option.some.inj hj ▸ hspan.keyed addr i hcode⟩
    | none =>
      dsimp only
      split
      · exact ⟨hread, fun i hi => by cases hi⟩
      · split
        · exact ⟨hread, fun i hi => by cases hi⟩
        · rename_i first rest hrun
          refine ⟨⟨fun a i hi => ?_, rfl⟩, fun i hi => Option.some.inj hi ▸ run_head hrun⟩
          rcases get?_storeNew hi with hold | ⟨-, ha⟩
          · rcases of_get?_insert hold with ⟨hf, rfl⟩ | hold
            · exact hf
            · exact hread.keyed a i hold
          · exact ha

/-- A fetch answers with an instruction at the address asked for. -/
theorem fetch_keyed (h : p.Keyed) {i? : Option Insn} (hf : fetch addr none p = .ok i? p') :
    Follows p p' ∧ ∀ i, i? = some i → i.addr = addr := by
  have heq : fetch addr none p = .ok (p.insnAt addr none).1 (p.insnAt addr none).2 := rfl
  rw [heq] at hf
  cases hf
  exact insnAt_keyed h addr

theorem fetchTarget_keyed (h : p.Keyed) {i : Insn} (hf : fetchTarget addr p = .ok i p') :
    Follows p p' ∧ i.addr = addr := by
  simp only [fetchTarget, bind, EStateM.bind] at hf
  cases hfetch : fetch addr none p with
  | error e p₁ => simp [hfetch] at hf
  | ok i? p₁ =>
    obtain ⟨hk, haddr⟩ := fetch_keyed h hfetch
    rw [hfetch] at hf
    cases i? with
    | none => cases hf
    | some j =>
      cases hf
      exact ⟨hk, haddr i rfl⟩

end Program

namespace Discovery

open Program

variable {p p' : Program} {i : Insn}

theorem delaySlot_keyed (hp : p.Keyed) {slot : Option Insn} (h : delaySlot arch i p = .ok slot p') :
    Follows p p' ∧ (arch ≠ .mips → slot.toList = []) := by
  unfold delaySlot at h
  split at h
  · rename_i harch
    exact ⟨(fetch_keyed hp h).1, fun hne => absurd harch hne⟩
  · obtain ⟨rfl, rfl⟩ := pure_eq_ok.mp h
    exact ⟨Follows.refl hp, fun _ => rfl⟩

theorem afterJump_state {slot : Option Insn} {after : Int}
    (h : afterJump arch i slot p = .ok after p') : p' = p := by
  unfold afterJump at h
  split at h
  · split at h
    · exact (pure_eq_ok.mp h).2.symm
    · cases h
  · exact (pure_eq_ok.mp h).2.symm

theorem ask_eq_ok {α : Type} {answer : Except Fault α} {a : α} (h : ask answer p = .ok a p') :
    answer = .ok a ∧ p = p' := by
  cases answer with
  | error e => cases h
  | ok b =>
    obtain ⟨rfl, rfl⟩ := pure_eq_ok.mp h
    exact ⟨rfl, rfl⟩

section Visit

variable {p p' : Program} (hp : p.Keyed) {d d' : Discovery} {arch : Arch} {i : Insn}
  {slot : Option Insn}

include hp

theorem visitJump_visits (huncond : arch.isUncondJump i = .ok true) (hops : i.operands ≠ [])
    (h : d.visitJump i slot p = .ok d' p') :
    Follows p p' ∧ ∃ next, d.Visits arch i slot.toList next d' := by
  have hjump := Arch.isJump_of_uncond huncond
  unfold visitJump at h
  cases ht : i.target? with
  | none =>
    simp only [ht, pure_eq_ok] at h
    obtain ⟨rfl, rfl⟩ := h
    exact ⟨Follows.refl hp, [], extends_addNode d i slot _ _, hjump, by simp,
      ⟨true, huncond, by simp [hops]⟩, fun _ _ => by rw [ht]; rfl,
      fun _ v hv => (by cases hv), fun _ t h => by cases ht.symm.trans h⟩
  | some addr =>
    simp only [ht, bind_eq_ok, pure_eq_ok] at h
    obtain ⟨t, p₁, hf, rfl, rfl⟩ := h
    obtain ⟨hk, haddr⟩ := fetchTarget_keyed hp hf
    exact ⟨hk, [t.addr], extends_addStep d i t.addr slot _ _, hjump, by simp,
      ⟨true, huncond, by simp [hops]⟩,
      fun _ _ => by rw [ht, haddr]; rfl, fun hno => absurd ⟨huncond, hops⟩ hno,
        fun _ t' h => by rw [← h, ht, haddr]; rfl⟩

theorem visitFork_visits (huncond : arch.isUncondJump i = .ok u)
    (hno : ¬ (u = true ∧ i.operands ≠ [])) (hcond : arch.isCondJump i = .ok true)
    (h : d.visitFork arch i slot p = .ok d' p') :
    Follows p p' ∧ ∃ next, d.Visits arch i slot.toList next d' := by
  have hjump : ∃ j, arch.isJump i = .ok j := ⟨true, Arch.isJump_of_cond hcond⟩
  unfold visitFork at h
  cases ht : i.target? with
  | none =>
    simp only [ht, pure_eq_ok] at h
    obtain ⟨rfl, rfl⟩ := h
    exact ⟨Follows.refl hp, [], extends_addNode d i slot _ _, hjump, by simp,
      ⟨u, huncond, by rw [if_neg hno]; rfl⟩,
      Way.of_run huncond hno (fun v hv => by cases hv) fun _ t h => by cases ht.symm.trans h⟩
  | some addr =>
    simp only [ht, bind_eq_ok] at h
    obtain ⟨t?, p₁, hf₁, after, p₂, hafter, n?, p₃, hf₃, h⟩ := h
    obtain rfl := afterJump_state hafter
    obtain ⟨hf, haddr⟩ := fetch_keyed hp hf₁
    have hk := hf.trans (fetch_keyed hf.keyed hf₃).1
    split at h
    · rename_i t n
      obtain ⟨rfl, rfl⟩ := pure_eq_ok.mp h
      exact ⟨hk, [n.addr, t.addr], extends_addFork d i n.addr t.addr slot _ _, hjump,
        fun _ => hcond, ⟨u, huncond, by rw [if_neg hno]; rfl⟩,
        Way.of_run huncond hno (fun v hv => by cases hv) fun _ t' h =>
          by rw [← h, ht, haddr t rfl]; rfl⟩
    · cases h

theorem visitStep_visits (huncond : arch.isUncondJump i = .ok u)
    (hno : ¬ (u = true ∧ i.operands ≠ [])) (hnone : arch.isCondJump i = .ok true → i.target? = none)
    (hjump : ∃ j, arch.isJump i = .ok j) (h : d.visitStep i p = .ok d' p') :
    Follows p p' ∧ ∃ next, d.Visits arch i [] next d' := by
  simp only [visitStep, bind_eq_ok] at h
  obtain ⟨n?, p₁, hf, h⟩ := h
  obtain ⟨hk, haddr⟩ := fetch_keyed hp hf
  split at h
  · rename_i n
    obtain ⟨rfl, rfl⟩ := pure_eq_ok.mp h
    refine ⟨hk, [n.addr], extends_addStep d i n.addr none _ _, hjump, by simp,
      ⟨u, huncond, by rw [if_neg hno]; rfl⟩,
      Way.of_run huncond hno (fun v hv => ?_) fun hc t ht => by cases (hnone hc).symm.trans ht⟩
    rw [← singleton_inj.mp hv, haddr n rfl]
  · obtain ⟨rfl, rfl⟩ := pure_eq_ok.mp h
    exact ⟨hk, [], extends_addNode d i none _ _, hjump, by simp,
      ⟨u, huncond, by rw [if_neg hno]; rfl⟩,
      Way.of_run huncond hno (fun v hv => by cases hv) fun hc t ht =>
        by cases (hnone hc).symm.trans ht⟩

/-- Whatever the machine, a visit adds one node, and the successors it gives the node are visited
next. -/
theorem visit_visits (h : d.visit i p = .ok d' p') :
    Follows p p' ∧ ∃ slot next, d.Visits p.arch i slot next d' ∧ (p.arch ≠ .mips → slot = []) := by
  simp only [visit, bind_eq_ok, get_eq_ok] at h
  obtain ⟨p₀, p₁, ⟨rfl, rfl⟩, slot, p₂, hslot, u, p₃, hask, h⟩ := h
  obtain ⟨hk, hnone⟩ := delaySlot_keyed hp hslot
  obtain ⟨huncond, rfl⟩ := ask_eq_ok hask
  split at h
  · rename_i hc
    obtain ⟨rfl, hops⟩ : u = true ∧ i.operands ≠ [] := by simpa using hc
    obtain ⟨hk', next, hx⟩ := visitJump_visits hk.keyed huncond hops h
    exact ⟨hk.trans hk', slot.toList, next, hx, hnone⟩
  · rename_i hc
    have hno : ¬ (u = true ∧ i.operands ≠ []) := by simpa using hc
    obtain ⟨cond, p₄, hask, h⟩ := bind_eq_ok.mp h
    obtain ⟨hcond, rfl⟩ := ask_eq_ok hask
    split at h
    · rename_i hc
      obtain ⟨rfl, -⟩ : cond = true ∧ i.operands ≠ [] := by simpa using hc
      obtain ⟨hk', next, hx⟩ := visitFork_visits hk.keyed huncond hno hcond h
      exact ⟨hk.trans hk', slot.toList, next, hx, hnone⟩
    · rename_i hc
      have hstep : p.arch.isCondJump i = .ok true → i.target? = none := by
        intro htrue
        obtain rfl := Except.ok.inj (hcond.symm.trans htrue)
        simp [Insn.target?, show i.operands = [] by simpa using hc]
      obtain ⟨ret, p₅, hask, h⟩ := bind_eq_ok.mp h
      obtain ⟨hret, rfl⟩ := ask_eq_ok hask
      have hjump := Arch.isJump_of_ret hret
      split at h
      · obtain ⟨rfl, rfl⟩ := pure_eq_ok.mp h
        exact ⟨hk, slot.toList, [],
          ⟨extends_addNode d i slot _ _, hjump, by simp, ⟨u, huncond, by rw [if_neg hno]; rfl⟩,
            Way.of_run huncond hno (fun v hv => by cases hv) fun hc t ht =>
              by cases (hstep hc).symm.trans ht⟩, hnone⟩
      · obtain ⟨hk', next, hx⟩ := visitStep_visits hk.keyed huncond hno hstep hjump h
        exact ⟨hk.trans hk', [], next, hx, fun _ => rfl⟩

end Visit

/-- One turn of the loop keeps the worklist invariant. -/
theorem Sound.turn (hp : p.Keyed) (h : d.Sound (i.addr :: d.rest)) (hc : d.Classifies p.arch)
    (hd : d.visitNew i p = .ok d' p') :
    Program.Follows p p' ∧ d'.graph.entry = d.graph.entry ∧ d'.Sound d'.rest ∧
      d'.Classifies p.arch := by
  unfold visitNew at hd
  split at hd
  · rename_i hmem
    obtain ⟨rfl, rfl⟩ := pure_eq_ok.mp hd
    exact ⟨Follows.refl hp, rfl, h.skip (contains_iff.mp hmem), hc⟩
  · rename_i hmem
    have hnew : i.addr ∉ d.graph.nodes.keys := fun hm => hmem (contains_iff.mpr hm)
    obtain ⟨hk, slot, next, hx, hslot⟩ := visit_visits hp hd
    exact ⟨hk, hx.entry, h.extend hnew hx.toExtends, hc.extend h hnew hx hslot⟩

theorem visitAll_wellFormed :
    ∀ (fuel : Nat) {p p' : Program} {d : Discovery} {i : Insn} {g : Graph}, p.Keyed →
      d.Sound (i.addr :: d.rest) → d.Classifies p.arch → visitAll fuel d i p = .ok g p' →
      g.WellFormed ∧ Classifies p.arch ⟨g, []⟩ ∧ g.entry = d.graph.entry := by
  intro fuel
  induction fuel with
  | zero => intro p p' d i g _ _ _ h; cases h
  | succ fuel ih =>
    intro p p' d i g hp hd hc h
    unfold visitAll at h
    obtain ⟨d₁, p₁, h₁, h⟩ := bind_eq_ok.mp h
    obtain ⟨hk, hentry, hs, hc₁⟩ := hd.turn hp hc h₁
    cases hrest : d₁.rest with
    | nil =>
      simp only [hrest, pure_eq_ok] at h
      obtain ⟨rfl, rfl⟩ := h
      rw [hrest] at hs
      exact ⟨hs.wellFormed, { hc₁ with }, hentry⟩
    | cons addr rest =>
      simp only [hrest, bind_eq_ok] at h
      obtain ⟨j, p₂, hf, h⟩ := h
      obtain ⟨hk₂, haddr⟩ := fetchTarget_keyed hk.keyed hf
      have hs' : Sound { d₁ with rest } (j.addr :: rest) := by
        rw [haddr, ← hrest]
        exact hs.graph_only
      have hc' : Classifies p.arch { d₁ with rest } := { hc₁ with }
      have harch := (hk.trans hk₂).arch
      obtain ⟨hg, hcg, he⟩ := ih hk₂.keyed hs' (harch ▸ hc') h
      exact ⟨hg, harch ▸ hcg, he.trans hentry⟩

end Discovery

/-- What discovery gives, whatever the machine and the image. -/
theorem Graph.discover_classifies (hp : p.Keyed) (h : Graph.discover entry p = .ok (some g) p') :
    g.WellFormed ∧ Discovery.Classifies p.arch ⟨g, []⟩ ∧ g.entry = entry := by
  simp only [Graph.discover, bind_eq_ok] at h
  obtain ⟨i?, p₁, hf, h⟩ := h
  obtain ⟨hk, haddr⟩ := Program.fetch_keyed hp hf
  cases i? with
  | none =>
    obtain ⟨h, -⟩ := pure_eq_ok.mp h
    cases h
  | some i =>
    simp only [bind_eq_ok, get_eq_ok] at h
    obtain ⟨p₂, p₃, ⟨rfl, rfl⟩, g', p₄, hv, h⟩ := h
    obtain ⟨h, -⟩ := pure_eq_ok.mp h
    cases h
    have hs : Discovery.Sound ⟨Graph.start entry, []⟩ (i.addr :: []) := by
      rw [haddr i rfl]
      exact Discovery.Sound.start entry
    rw [← hk.arch]
    exact Discovery.visitAll_wellFormed _ hk.keyed hs (Discovery.Classifies.start _ entry) hv

/-- A graph that discovery gives is well formed, whatever the machine and the image. -/
theorem Graph.discover_wellFormed (hp : p.Keyed) (h : Graph.discover entry p = .ok (some g) p') :
    g.WellFormed ∧ g.Classified p.arch ∧ g.entry = entry := by
  obtain ⟨hwf, hc, hentry⟩ := Graph.discover_classifies hp h
  exact ⟨hwf, hc.classified, hentry⟩

/-- On machines without delay slots every node that discovery gives is one instruction. -/
theorem Graph.discover_single (hp : p.Keyed) (harch : p.arch ≠ .mips)
    (h : Graph.discover entry p = .ok (some g) p') {l : List Insn} (hl : g.nodes.get? a = some l) :
    ∃ i, l = [i] :=
  (Graph.discover_classifies hp h).2.1.single harch a l hl

end Decompiler
