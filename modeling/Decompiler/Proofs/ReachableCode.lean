import Decompiler.Proofs.OneByteCode
/-!
# On x86 the graph is exactly the code that the entry leads to

The successors of an x86 instruction are written on it: a direct jump names its target, a
conditional one also falls through, a return and a jump through a register or memory have none, and
any other instruction runs on into the next one if there is one. `Graph.discover_exact` says that
discovery finds nothing exactly if the entry cannot be decoded, fails exactly if the entry leads to
a direct jump with a successor that cannot be decoded, and otherwise gives the reachable addresses
with these successors.
-/

namespace Decompiler

open List OrdMap

variable {a : Int}

namespace Program

/-- The successors of an x86 instruction. -/
def successors (p : Program) (i : Insn) : List Int :=
  if i.opcode = "JMP" ∧ i.operands ≠ [] then i.target?.toList
  else if i.jumpGroup = true ∧ i.operands ≠ [] then
    match i.target? with
    | some t => [i.next, t]
    | none => []
  else if i.retGroup = true then []
  else if (p.decode? i.next).isSome then [i.next]
  else []

/-- A jump whose last operand is the address that it leads to. -/
def IsDirectJump (i : Insn) : Prop :=
  (i.opcode = "JMP" ∨ i.jumpGroup = true) ∧ i.target?.isSome = true

/-- A direct jump one of whose successors cannot be decoded. -/
def Dangling (p : Program) (i : Insn) : Prop :=
  IsDirectJump i ∧ ∃ b ∈ p.successors i, p.decode? b = none

/-- The instruction at one address has the other as a successor. -/
def LeadsTo (p : Program) (a b : Int) : Prop := ∃ i, p.decode? a = some i ∧ b ∈ p.successors i

/-- Following successors from one address gets to the other. -/
def Reaches (p : Program) : Int → Int → Prop := Relation.ReflTransGen p.LeadsTo

end Program

/-! ## One visit -/

namespace Discovery

open Program

variable {p p₀ : Program} {i : Insn} {g : Graph}

theorem not_dangling_of_target (h : i.target? = none) : ¬ p.Dangling i := by
  rintro ⟨⟨-, ht⟩, -⟩
  rw [h] at ht
  cases ht

theorem target_of_operands (h : i.operands = []) : i.target? = none := by
  simp [Insn.target?, h]

/-- A visit fails on a dangling jump, and otherwise adds the instruction with its successors. -/
def Visited (p₀ : Program) (d : Discovery) (i : Insn) (r : EStateM.Result Fault Program Discovery) :
    Prop :=
  ∃ p', Since p₀ p' ∧ (p₀.Dangling i ∧ r = .error .undecodable p' ∨
    ¬ p₀.Dangling i ∧ ∃ d', r = .ok d' p' ∧ d.Extends i [] (p₀.successors i) d')

section Visit

variable {p₀ p : Program} (h₀ : p₀.image.Steady) (h : Since p₀ p) (d : Discovery) (i : Insn)

include h₀ h

theorem visitJump_x86 (hop : i.opcode = "JMP") (hops : i.operands ≠ []) :
    Visited p₀ d i (d.visitJump i none p) := by
  have hsucc : p₀.successors i = i.target?.toList := by simp [successors, hop, hops]
  unfold visitJump
  cases ht : i.target? with
  | none =>
    refine ⟨p, h, .inr ⟨not_dangling_of_target ht, _, rfl, ?_⟩⟩
    rw [hsucc, ht]
    exact extends_addNode d i none _ _
  | some t =>
    obtain ⟨p', h', hf⟩ := fetchTarget_eq h₀ h t
    refine ⟨p', h', ?_⟩
    simp only [bind, EStateM.bind, hf]
    cases hdec : p₀.decode? t with
    | none =>
      refine .inl ⟨⟨⟨.inl hop, by simp [ht]⟩, t, by simp [hsucc, ht], hdec⟩, rfl⟩
    | some j =>
      refine .inr ⟨?_, _, rfl, ?_⟩
      · rintro ⟨-, b, hb, hnone⟩
        rw [hsucc, ht] at hb
        rw [mem_singleton.mp hb, hdec] at hnone
        cases hnone
      · rw [hsucc, ht, ← decode?_addr hdec]
        exact extends_addStep d i j.addr none _ _

theorem visitFork_x86 (hop : i.opcode ≠ "JMP") (hg : i.jumpGroup = true) (hops : i.operands ≠ []) :
    Visited p₀ d i (d.visitFork .x86 i none p) := by
  have hsucc : p₀.successors i =
      match i.target? with
      | some t => [i.next, t]
      | none => [] := by
    simp [successors, hop, hg, hops]
  unfold visitFork
  cases ht : i.target? with
  | none =>
    refine ⟨p, h, .inr ⟨not_dangling_of_target ht, _, rfl, ?_⟩⟩
    rw [hsucc, ht]
    exact extends_addNode d i none _ _
  | some t =>
    simp only [ht] at hsucc
    obtain ⟨p₁, hf₁, h₁⟩ := fetch_eq h₀ h t
    obtain ⟨p₂, hf₂, h₂⟩ := fetch_eq h₀ h₁ i.next
    have hafter : afterJump .x86 i none p₁ = .ok i.next p₁ := rfl
    refine ⟨p₂, h₂, ?_⟩
    simp only [bind, EStateM.bind, hf₁, hafter, hf₂]
    cases hdt : p₀.decode? t with
    | none => exact .inl ⟨⟨⟨.inr hg, by simp [ht]⟩, t, by simp [hsucc], hdt⟩, rfl⟩
    | some j =>
      cases hdn : p₀.decode? i.next with
      | none => exact .inl ⟨⟨⟨.inr hg, by simp [ht]⟩, i.next, by simp [hsucc], hdn⟩, rfl⟩
      | some n =>
        refine .inr ⟨?_, _, rfl, ?_⟩
        · rintro ⟨-, b, hb, hnone⟩
          rw [hsucc] at hb
          rcases mem_cons.mp hb with rfl | hb
          · rw [hdn] at hnone
            cases hnone
          · rw [mem_singleton.mp hb, hdt] at hnone
            cases hnone
        · rw [hsucc, ← decode?_addr hdt, ← decode?_addr hdn]
          exact extends_addFork d i n.addr j.addr none _ _

theorem visitStep_x86
    (hsucc : p₀.successors i = if (p₀.decode? i.next).isSome then [i.next] else []) :
    ∃ p' d', Since p₀ p' ∧ d.visitStep i p = .ok d' p' ∧ d.Extends i [] (p₀.successors i) d' := by
  obtain ⟨p', hf, h'⟩ := fetch_eq h₀ h i.next
  simp only [visitStep, bind, EStateM.bind, hf]
  cases hdn : p₀.decode? i.next with
  | none =>
    refine ⟨p', _, h', rfl, ?_⟩
    rw [hsucc, hdn]
    exact extends_addNode d i none _ _
  | some n =>
    refine ⟨p', _, h', rfl, ?_⟩
    rw [hsucc, hdn, ← decode?_addr hdn]
    exact extends_addStep d i n.addr none _ _

theorem visit_x86 (hx : p₀.arch = .x86) : Visited p₀ d i (d.visit i p) := by
  have harch : p.arch = .x86 := h.arch.trans hx
  have hvisit : d.visit i p =
      if i.opcode = "JMP" ∧ i.operands ≠ [] then d.visitJump i none p
      else if i.jumpGroup = true ∧ i.operands ≠ [] then d.visitFork .x86 i none p
      else if i.retGroup = true then .ok { d with graph := d.graph.addNode i none } p
      else d.visitStep i p := by
    have hget : (get : Decoding Program) p = .ok p p := rfl
    simp only [visit, bind, EStateM.bind, hget, harch, delaySlot, Arch.isUncondJump,
      Arch.isCondJump, Arch.isRet, ask,
      pure, EStateM.pure, X86.isUncondJump, X86.isCondJump, reduceCtorEq, if_false]
    by_cases hop : i.opcode = "JMP" <;> by_cases hops : i.operands = [] <;>
      cases hg : i.jumpGroup <;> cases hr :
        i.retGroup <;> simp [hop, hops, EStateM.bind, EStateM.pure]
  rw [hvisit]
  by_cases hjump : i.opcode = "JMP" ∧ i.operands ≠ []
  · rw [if_pos hjump]
    exact visitJump_x86 h₀ h d i hjump.1 hjump.2
  · rw [if_neg hjump]
    by_cases hfork : i.jumpGroup = true ∧ i.operands ≠ []
    · rw [if_pos hfork]
      exact visitFork_x86 h₀ h d i (fun hop => hjump ⟨hop, hfork.2⟩) hfork.1 hfork.2
    · rw [if_neg hfork]
      have hnot : ¬ p₀.Dangling i := by
        rintro hd
        by_cases hops : i.operands = []
        · exact not_dangling_of_target (target_of_operands hops) hd
        · rcases hd.1.1 with hop | hg
          · exact hjump ⟨hop, hops⟩
          · exact hfork ⟨hg, hops⟩
      by_cases hret : i.retGroup = true
      · rw [if_pos hret]
        refine ⟨p, h, .inr ⟨hnot, _, rfl, ?_⟩⟩
        have hsucc : p₀.successors i = [] := by
          simp only [successors, if_neg hjump, if_neg hfork, if_pos hret]
        rw [hsucc]
        exact extends_addNode d i none _ _
      · rw [if_neg hret]
        obtain ⟨p', d', h', hd, hx'⟩ := visitStep_x86 h₀ h d i (by
          simp only [successors, if_neg hjump, if_neg hfork, if_neg hret])
        exact ⟨p', h', .inr ⟨hnot, d', hd, hx'⟩⟩

end Visit

/-! ## The whole run -/

/-- What holds of a discovery under way on x86: the nodes are instructions that the decoder gives,
with their successors, and all addresses still to visit can be decoded. -/
structure Exact (p₀ : Program) (d : Discovery) (todo : List Int) : Prop where
  sound : d.Sound todo
  node : ∀ a l, d.graph.nodes.get? a = some l →
    ∃ i, l = [i] ∧ p₀.decode? a = some i ∧ d.graph.next a = p₀.successors i ∧ ¬ p₀.Dangling i
  todo : ∀ a ∈ todo, (p₀.decode? a).isSome = true

theorem isSome_decode?_of_mem_successors (h : ¬ p.Dangling i) {b : Int} (hb : b ∈ p.successors i) :
    (p.decode? b).isSome = true := by
  by_contra hnone
  have hdec : p.decode? b = none := by simpa using hnone
  refine h ⟨?_, b, hb, hdec⟩
  unfold successors at hb
  split at hb
  · rename_i hjump
    exact ⟨.inl hjump.1, by simp_all⟩
  · split at hb
    · rename_i hfork
      cases ht : i.target? with
      | none => simp [ht] at hb
      | some t => exact ⟨.inr hfork.1, by simp [ht]⟩
    · split at hb
      · cases hb
      · split at hb
        · rename_i hsome
          rw [mem_singleton.mp hb] at hnone
          exact (hnone hsome).elim
        · cases hb

namespace Exact

variable {p₀ : Program} {d d' : Discovery} {i : Insn} {todo : List Int}

theorem start {entry : Int} (hi : (p₀.decode? entry).isSome = true) :
    Exact p₀ ⟨Graph.start entry, []⟩ [entry] where
  sound := Sound.start entry
  node a l h := by cases h
  todo a ha := mem_singleton.mp ha ▸ hi

theorem skip (h : Exact p₀ d (a :: todo)) (ha : a ∈ d.graph.nodes.keys) : Exact p₀ d todo where
  sound := h.sound.skip ha
  node := h.node
  todo b hb := h.todo b (mem_cons_of_mem a hb)

theorem extend (h : Exact p₀ d (i.addr :: d.rest)) (hi : p₀.decode? i.addr = some i)
    (hnew : i.addr ∉ d.graph.nodes.keys) (hdang : ¬ p₀.Dangling i)
    (hx : d.Extends i [] (p₀.successors i) d') : Exact p₀ d' d'.rest where
  sound := h.sound.extend hnew hx
  node a l hl := by
    rw [hx.next_eq (h.sound.next_of_not_mem hnew)]
    rw [hx.nodes, OrdMap.get?_insert] at hl
    split at hl
    · rename_i ha
      rw [← ha]
      exact ⟨i, (Option.some.inj hl).symm, hi, if_pos rfl, hdang⟩
    · rename_i ha
      rw [if_neg (Ne.symm ha)]
      exact h.node a l hl
  todo b hb := by
    rw [hx.rest] at hb
    rcases mem_append.mp hb with hb | hb
    · exact isSome_decode?_of_mem_successors hdang hb
    · exact h.todo b (.tail _ hb)

/-- The edges found so far are steps of the program. -/
theorem reaches (h : Exact p₀ d todo) (ha : d.graph.Reachable a) : p₀.Reaches d.graph.entry a := by
  refine Relation.ReflTransGen.mono ?_ _ _ ha
  intro b c hbc
  have hb : b ∈ d.graph.nodes.keys := by
    by_contra hb
    rw [Graph.Edge, h.sound.next_of_not_mem hb] at hbc
    cases hbc
  obtain ⟨l, hl⟩ := mem_keys.mp hb
  obtain ⟨j, -, hj, hnext, -⟩ := h.node b l hl
  rw [Graph.Edge, hnext] at hbc
  exact ⟨j, hj, hbc⟩

/-- Nodes are instructions of the decoder's table, which bounds their number. -/
theorem size_le (h : Exact p₀ d todo) : d.graph.nodes.keys.length ≤ p₀.decoder.table.length := by
  have hsub : d.graph.nodes.keys ⊆ p₀.decoder.table.map (·.addr) := by
    intro a ha
    obtain ⟨l, hl⟩ := mem_keys.mp ha
    obtain ⟨j, -, hj, -⟩ := h.node a l hl
    have hat := (decode?_eq_some.mp hj).2.2.1
    exact mem_map.mpr ⟨j, mem_of_find?_eq_some hat, decode?_addr hj⟩
  have hle := (subperm_of_subset h.sound.nodup hsub).length_le
  simpa using hle

end Exact

/-- How many visits may still follow. -/
def visitsLeft (p₀ : Program) (d : Discovery) : Nat :=
  d.rest.length + 2 * (p₀.decoder.table.length - d.graph.nodes.keys.length)

theorem Exact.visitsLeft_le {d d' : Discovery} {next : List Int} (h : Exact p₀ d' d'.rest)
    (hnew : i.addr ∉ d.graph.nodes.keys) (hx : d.Extends i [] next d') :
    visitsLeft p₀ d' ≤ visitsLeft p₀ d := by
  have hsize := h.size_le
  have hshort := hx.short
  simp only [visitsLeft]
  rw [hx.nodes, keys_insert_of_not_mem hnew, length_append] at hsize ⊢
  rw [hx.rest, length_append]
  simp only [length_singleton] at hsize ⊢
  omega

/-- One turn of the loop stops at a dangling jump, and otherwise keeps the invariant. -/
theorem visitNew_x86 (h₀ : p₀.image.Steady) (hx : p₀.arch = .x86) (h : Since p₀ p) {d : Discovery}
    (hd : Exact p₀ d (i.addr :: d.rest)) (hi : p₀.decode? i.addr = some i) :
    ∃ p', Since p₀ p' ∧
      ((p₀.Dangling i ∧ d.visitNew i p = .error .undecodable p') ∨
        ∃ d', d.visitNew i p = .ok d' p' ∧ Exact p₀ d' d'.rest ∧ d'.graph.entry = d.graph.entry ∧
          visitsLeft p₀ d' ≤ visitsLeft p₀ d) := by
  unfold visitNew
  by_cases hc : d.graph.nodes.contains i.addr = true
  · rw [if_pos hc]
    exact ⟨p, h, .inr ⟨d, rfl, hd.skip (contains_iff.mp hc), rfl, le_refl _⟩⟩
  · rw [if_neg hc]
    have hnew : i.addr ∉ d.graph.nodes.keys := fun hm => hc (contains_iff.mpr hm)
    obtain ⟨p', h', ⟨hdang, he⟩ | ⟨hdang, d', hd', hext⟩⟩ := visit_x86 h₀ h d i hx
    · exact ⟨p', h', .inl ⟨hdang, he⟩⟩
    · have hex := hd.extend hi hnew hdang hext
      exact ⟨p', h', .inr ⟨d', hd', hex, hext.entry, hex.visitsLeft_le hnew hext⟩⟩

/-- With a turn for every visit that may follow, the run ends at a dangling jump that the entry
leads to or with nothing left to visit. -/
theorem visitAll_x86 (h₀ : p₀.image.Steady) (hx : p₀.arch = .x86) :
    ∀ (fuel : Nat) {p : Program} {d : Discovery} {i : Insn}, Since p₀ p →
      Exact p₀ d (i.addr :: d.rest) → p₀.decode? i.addr = some i → visitsLeft p₀ d < fuel →
      (∃ a j p', p₀.Reaches d.graph.entry a ∧ p₀.decode? a = some j ∧ p₀.Dangling j ∧
          visitAll fuel d i p = .error .undecodable p') ∨
        ∃ g p', visitAll fuel d i p = .ok g p' ∧ Exact p₀ ⟨g, []⟩ [] ∧ g.entry = d.graph.entry := by
  intro fuel
  induction fuel with
  | zero => intro p d i _ _ _ hf; omega
  | succ fuel ih =>
    intro p d i h hd hi hf
    unfold visitAll
    obtain ⟨p₁, h₁, ⟨hdang, he⟩ | ⟨d₁, hd₁, hex, hentry, hleft⟩⟩ := visitNew_x86 h₀ hx h hd hi
    · refine .inl ⟨i.addr, i, p₁, ?_, hi, hdang, by simp only [bind, EStateM.bind, he]⟩
      exact hd.reaches (hd.sound.reachable _ (.inr (.head _)))
    · simp only [bind, EStateM.bind, hd₁]
      cases hrest : d₁.rest with
      | nil =>
        rw [hrest] at hex
        exact .inr ⟨d₁.graph, p₁, rfl, ⟨hex.sound.graph_only, hex.node, hex.todo⟩, hentry⟩
      | cons addr rest =>
        rw [hrest] at hex
        obtain ⟨j, hj⟩ := Option.isSome_iff_exists.mp (hex.todo addr (.head _))
        obtain ⟨p₂, h₂, hf₂⟩ := fetchTarget_eq h₀ h₁ addr
        rw [hj] at hf₂
        simp only [EStateM.bind, hf₂]
        obtain rfl : j.addr = addr := decode?_addr hj
        have hex' : Exact p₀ { d₁ with rest } (j.addr :: rest) :=
          ⟨hex.sound.graph_only, hex.node, hex.todo⟩
        have hleft' : visitsLeft p₀ { d₁ with rest } < fuel := by
          simp only [visitsLeft, hrest, length_cons] at hleft hf ⊢
          omega
        rw [← hentry]
        exact ih h₂ hex' hj hleft'

section

variable (h : Exact p₀ ⟨g, []⟩ [])
include h

/-- A finished discovery has exactly the addresses that the entry leads to: every step of the
program from a node leads to a node, since the node has all successors as edges. -/
theorem Exact.mem_keys_iff : a ∈ g.nodes.keys ↔ p₀.Reaches g.entry a := by
  have hwf : g.WellFormed := h.sound.wellFormed
  refine ⟨fun ha => h.reaches (hwf.reachable a ha), fun ha => ?_⟩
  induction ha with
  | refl => exact hwf.entry_mem
  | tail _ hbc ih =>
    obtain ⟨l, hl⟩ := mem_keys.mp ih
    obtain ⟨j, hj, hc⟩ := hbc
    obtain ⟨k, -, hk, hnext, -⟩ := h.node _ l hl
    obtain rfl : j = k := Option.some.inj (hj.symm.trans hk)
    exact hwf.closed _ _ (by rw [Graph.Edge]; exact hnext ▸ hc)

/-- The node of an address that the entry leads to. -/
theorem Exact.node_of_reaches (ha : p₀.Reaches g.entry a) (hi : p₀.decode? a = some i) :
    g.nodes.get? a = some [i] ∧ g.next a = p₀.successors i ∧ ¬ p₀.Dangling i := by
  obtain ⟨l, hl⟩ := mem_keys.mp (h.mem_keys_iff.mpr ha)
  obtain ⟨j, rfl, hj, hnext, hdang⟩ := h.node a l hl
  obtain rfl : i = j := Option.some.inj (hi.symm.trans hj)
  exact ⟨hl, hnext, hdang⟩

theorem Exact.nodes_get? (a : Int) (l : List Insn) :
    g.nodes.get? a = some l ↔ p₀.Reaches g.entry a ∧ ∃ i, p₀.decode? a = some i ∧ l = [i] := by
  constructor
  · intro hl
    obtain ⟨i, hli, hi, -⟩ := h.node a l hl
    exact ⟨h.mem_keys_iff.mp (mem_keys_of_get? hl), i, hi, hli⟩
  · rintro ⟨ha, i, hi, rfl⟩
    exact (h.node_of_reaches ha hi).1

theorem Exact.succs_get? (a : Int) (l : List Int) :
    g.succs.get? a = some l ↔
      p₀.Reaches g.entry a ∧ ∃ i, p₀.decode? a = some i ∧ p₀.successors i = l ∧ l ≠ [] := by
  constructor
  · intro hl
    obtain ⟨ha, hne, -⟩ := h.sound.succs a l hl
    obtain ⟨l', hl'⟩ := mem_keys.mp ha
    obtain ⟨i, -, hi, hnext, -⟩ := h.node a l' hl'
    refine ⟨h.mem_keys_iff.mp ha, i, hi, ?_, hne⟩
    rw [← hnext]
    exact getD_of_get? hl
  · rintro ⟨ha, i, hi, rfl, hne⟩
    obtain ⟨-, hnext, -⟩ := h.node_of_reaches ha hi
    cases hs : g.succs.get? a with
    | none =>
      refine (hne ?_).elim
      rw [← hnext, Graph.next, getD_of_not_mem (OrdMap.get?_eq_none.mp hs)]
    | some l => rw [← hnext, Graph.next, getD_of_get? hs]

end

end Discovery

open Program in
/-- A discovery on x86 ends in one of three ways, by what the entry leads to. -/
theorem Graph.discover_x86 {p : Program} (hdef : p.image.Definite) (hx : p.arch = .x86)
    (hcode : ∀ addr i, p.code.get? addr = some i → p.decode? addr = some i) (entry : Int) :
    (∃ p', p.decode? entry = none ∧ Graph.discover entry p = .ok none p') ∨
      (∃ a i p', p.Reaches entry a ∧ p.decode? a = some i ∧ p.Dangling i ∧
        Graph.discover entry p = .error .undecodable p') ∨
      ∃ g p', (p.decode? entry).isSome = true ∧ Graph.discover entry p = .ok (some g) p' ∧
        Discovery.Exact p ⟨g, []⟩ [] ∧ g.entry = entry := by
  obtain ⟨p₁, hf, h₁⟩ := fetch_eq hdef.steady (Since.refl hdef.steady hcode) entry
  simp only [Graph.discover, bind, EStateM.bind, hf]
  cases hi : p.decode? entry with
  | none => exact .inl ⟨p₁, rfl, rfl⟩
  | some i =>
    have hstart : Discovery.Exact p ⟨Graph.start entry, []⟩ (i.addr :: []) := by
      rw [decode?_addr hi]
      exact Discovery.Exact.start (by rw [hi]; rfl)
    have hget : (get : Decoding Program) p₁ = .ok p₁ p₁ := rfl
    simp only [EStateM.bind, hget, h₁.decoder]
    obtain ⟨a, j, p', ha, hj, hdang, he⟩ | ⟨g, p', hg, hex, hentry⟩ :=
      Discovery.visitAll_x86 hdef.steady hx (2 * p.decoder.table.length + 2) h₁ hstart
        (by rwa [decode?_addr hi]) (by simp [Discovery.visitsLeft, Graph.start])
    · exact .inr (.inl ⟨a, j, p', ha, hj, hdang, by rw [he]⟩)
    · exact .inr (.inr ⟨g, p', rfl, by rw [hg]; rfl, hex, hentry⟩)

/-- Discovery on x86 is exact. In a raw file, or an ELF file whose sections do not overlap, it finds
nothing exactly if nothing can be decoded at the entry; it fails exactly if the entry leads to a
direct jump with a successor that cannot be decoded; and a graph that it gives has one node for each
address that the entry leads to, with the instruction there and its successors, and the converse of
these as predecessors. -/
theorem Graph.discover_exact {p : Program} (hdef : p.image.Definite) (hx : p.arch = .x86)
    (hcode : ∀ addr i, p.code.get? addr = some i → p.decode? addr = some i) (entry : Int) :
    ((∃ p', Graph.discover entry p = .ok none p') ↔ p.decode? entry = none) ∧
      ((∃ e p', Graph.discover entry p = .error e p') ↔
        ∃ a i, p.Reaches entry a ∧ p.decode? a = some i ∧ p.Dangling i) ∧
      ∀ g p', Graph.discover entry p = .ok (some g) p' →
        g.entry = entry ∧ g.nodes.keys.Nodup ∧
          (∀ a, a ∈ g.nodes.keys ↔ p.Reaches entry a) ∧
          (∀ a l, g.nodes.get? a = some l ↔ p.Reaches entry a ∧ ∃ i, p.decode? a = some i ∧
          l = [i]) ∧ (∀ a l, g.succs.get? a = some l ↔
            p.Reaches entry a ∧ ∃ i, p.decode? a = some i ∧ p.successors i = l ∧ l ≠ []) ∧
          ∀ a b, (g.preds.getD b []).count a = (g.succs.getD a []).count b := by
  obtain ⟨p₁, hnone, h⟩ | ⟨a, i, p₁, ha, hi, hdang, h⟩ | ⟨g, p₁, hsome, h, hex, rfl⟩ :=
    Graph.discover_x86 hdef hx hcode entry
  · have hstuck : ∀ a, p.Reaches entry a → a = entry := by
      intro a ha
      rcases Relation.ReflTransGen.cases_head ha with rfl | ⟨b, ⟨i, hi, -⟩, -⟩
      · rfl
      · rw [hnone] at hi
        cases hi
    refine ⟨by simp [h, hnone], ?_, by simp [h]⟩
    simp only [h, reduceCtorEq, exists_false, false_iff, not_exists, not_and]
    intro a i ha hi
    rw [hstuck a ha, hnone] at hi
    cases hi
  · refine ⟨?_, ?_, by simp [h]⟩
    · simp only [h, reduceCtorEq, exists_false, false_iff]
      rcases Relation.ReflTransGen.cases_head ha with rfl | ⟨b, ⟨j, hj, -⟩, -⟩
      · simp [hi]
      · simp [hj]
    · exact ⟨fun _ => ⟨a, i, ha, hi, hdang⟩, fun _ => ⟨_, _, h⟩⟩
  · refine ⟨?_, ?_, ?_⟩
    · simp only [h, EStateM.Result.ok.injEq, reduceCtorEq, false_and, exists_false, false_iff]
      intro hnone
      rw [hnone] at hsome
      cases hsome
    · simp only [h, reduceCtorEq, exists_false, false_iff]
      rintro ⟨a, i, ha, hi, hdang⟩
      exact (hex.node_of_reaches ha hi).2.2 hdang
    · intro g' p' h'
      rw [h] at h'
      cases h'
      have hwf : g.WellFormed := hex.sound.wellFormed
      exact ⟨rfl, hwf.nodup, fun a => hex.mem_keys_iff, hex.nodes_get?, hex.succs_get?,
        hwf.converse⟩

/-- A loop with a way out: all four instructions are found, and no others are reachable. -/
theorem Graph.discover_exact_loop :
    ∃ g p', Graph.discover 0 (OneByte.program [.run, .fork 3, .jump 0, .ret]) = .ok (some g) p' ∧
      g.nodes.keys = [0, 1, 2, 3] ∧
      ∀ a, a ∈ g.nodes.keys ↔ (OneByte.program [.run, .fork 3, .jump 0, .ret]).Reaches 0 a := by
  have hkeys : (OneByte.graph? [.run, .fork 3, .jump 0, .ret]).map (·.nodes.keys) =
      some [0, 1, 2, 3] := by
    decide +kernel
  obtain ⟨g, hg, hk⟩ := Option.map_eq_some_iff.mp hkeys
  obtain ⟨p', h⟩ := OneByte.discover_of_graph? hg
  obtain ⟨-, -, hexact⟩ :=
    Graph.discover_exact (OneByte.program_definite _) (OneByte.program_arch _)
      (OneByte.program_code _) 0
  exact ⟨g, p', h, hk, (hexact g p' h).2.2.1⟩

end Decompiler
