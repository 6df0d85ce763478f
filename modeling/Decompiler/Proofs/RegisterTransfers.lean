import Decompiler.Instruction
import Mathlib.Data.BitVec
/-!
# Moves between registers

The machine has registers of 32 bits. Instructions name them as a whole or in parts: the lower half,
the low byte, and of some the byte above it. `MOV` puts a constant or what another part holds into a
part, `XOR` combines it with what is there, and the rest of the register stays.

Every bit of a register is then either copied, replaced by a constant or combined with another one.
So what a block leaves in a register depends on the bits before it in a regular way (`after_mix`),
and whether it is always the same can be found out by trying: with all registers zero, and with a
single bit set (`after_eq_iff_probes`).
-/

namespace Decompiler.X86

open List

/-! ## Registers -/

/-- The registers, by the names of all their 32 bits. -/
inductive Register where
  | eax | ebx | ecx | edx | esi | edi | ebp | esp | r8d | r9d | r10d | r11d | r12d | r13d
    | r14d | r15d
  deriving DecidableEq, Repr

/-- A part of a register. -/
inductive Part where
  | whole | half | low | high
  deriving DecidableEq, Repr

namespace Part

/-- The size in bits. -/
def width : Part → Nat
  | whole => 32
  | half => 16
  | low => 8
  | high => 8

/-- How many bits of the register are below the part. -/
def shift : Part → Nat
  | high => 8
  | _ => 0

/-- The bits of the register that are in the part. -/
def mask : Part → BitVec 32
  | whole => BitVec.allOnes 32
  | half => 0xffff
  | low => 0xff
  | high => 0xff00

end Part

namespace Register

def all : List Register :=
  [eax, ebx, ecx, edx, esi, edi, ebp, esp, r8d, r9d, r10d, r11d, r12d, r13d, r14d, r15d]

theorem mem_all (r : Register) : r ∈ all := by cases r <;> decide

/-- The names of the parts of a register: the whole of it, its half, its low byte, and if there is
one the byte above. -/
def names : Register → List String
  | eax => ["eax", "ax", "al", "ah"]
  | ebx => ["ebx", "bx", "bl", "bh"]
  | ecx => ["ecx", "cx", "cl", "ch"]
  | edx => ["edx", "dx", "dl", "dh"]
  | esi => ["esi", "si", "sil"]
  | edi => ["edi", "di", "dil"]
  | ebp => ["ebp", "bp", "bpl"]
  | esp => ["esp", "sp", "spl"]
  | r8d => ["r8d", "r8w", "r8b"]
  | r9d => ["r9d", "r9w", "r9b"]
  | r10d => ["r10d", "r10w", "r10b"]
  | r11d => ["r11d", "r11w", "r11b"]
  | r12d => ["r12d", "r12w", "r12b"]
  | r13d => ["r13d", "r13w", "r13b"]
  | r14d => ["r14d", "r14w", "r14b"]
  | r15d => ["r15d", "r15w", "r15b"]

end Register

/-- A part of some register. -/
structure Slot where
  register : Register
  part : Part
  deriving DecidableEq, Repr

/-- The slot that has a name. -/
def Slot.named? (name : String) : Option Slot :=
  (Register.all.flatMap fun r =>
    (r.names.zip [Part.whole, .half, .low, .high]).map fun part =>
      (part.1, Slot.mk r part.2)).lookup name

/-- What the registers hold. -/
abbrev Registers := Register → BitVec 32

namespace Registers

/-- What a slot holds. -/
def read (m : Registers) (s : Slot) : BitVec 32 := (m s.register &&& s.part.mask) >>> s.part.shift

/-- Puts a value into a slot. The rest of the register stays. -/
def write (m : Registers) (s : Slot) (v : BitVec 32) : Registers := fun r =>
  if r = s.register then (m r &&& ~~~s.part.mask) ||| ((v <<< s.part.shift) &&& s.part.mask)
    else m r

@[simp] theorem write_of_ne (m : Registers) {s : Slot} {r : Register} (h : r ≠ s.register)
    (v : BitVec 32) : m.write s v r = m r := if_neg h

@[simp] theorem write_whole (m : Registers) (r : Register) (v : BitVec 32) :
    m.write ⟨r, .whole⟩ v r = v := by
  rw [write, if_pos rfl]
  simp only [Part.mask, Part.shift, BitVec.and_allOnes, BitVec.not_allOnes, BitVec.and_zero,
    BitVec.zero_or, BitVec.shiftLeft_zero]

end Registers

/-! ## Instructions -/

/-- Where a value comes from. -/
inductive Source where
  | slot (s : Slot)
  | constant (k : Int)
  deriving DecidableEq, Repr

namespace Source

/-- The source that an operand denotes. -/
def of? : OperandValue → Option Source
  | .register name _ => (Slot.named? name).map slot
  | .immediate k => some (constant k)
  | _ => none

/-- A slot has to have the size of the part that it goes into. -/
def fits (part : Part) : Source → Bool
  | slot s => s.part.width = part.width
  | constant _ => true

def value (m : Registers) : Source → BitVec 32
  | slot s => m.read s
  | constant k => BitVec.ofInt 32 k

end Source

/-- A value goes into a slot, and is combined with what is there if `mixes`. -/
structure Transfer where
  target : Slot
  source : Source
  mixes : Bool
  deriving DecidableEq, Repr

namespace Transfer

/-- The transfer that an instruction makes: `MOV` and `XOR` of two operands of the same size. -/
def ofInsn? (i : Insn) : Option Transfer :=
  match i.operands.map Operand.value with
  | [.register name _, operand] => do
    let target ← Slot.named? name
    let source ← Source.of? operand
    if source.fits target.part then
      if i.opcode = "MOV" then some ⟨target, source, false⟩
      else if i.opcode = "XOR" then some ⟨target, source, true⟩
      else none
    else none
  | _ => none

/-- An instruction that makes a transfer is a move or a combination, and has the operands of the
transfer. -/
theorem ofInsn?_cases {i : Insn} {t : Transfer} (h : ofInsn? i = some t) : ∃ name n operand,
    i.operands.map Operand.value = [.register name n, operand] ∧
      Source.of? operand = some t.source ∧
      (i.opcode = "MOV" ∧ t.mixes = false ∨ i.opcode = "XOR" ∧ t.mixes = true) := by
  unfold ofInsn? at h
  split at h
  · rename_i name n operand hoperands
    obtain ⟨target, -, h⟩ := Option.bind_eq_some_iff.mp h
    obtain ⟨source, hsource, h⟩ := Option.bind_eq_some_iff.mp h
    refine ⟨name, n, operand, hoperands, ?_⟩
    split_ifs at h with hfits hmov hxor
    · cases h
      exact ⟨hsource, .inl ⟨hmov, rfl⟩⟩
    · cases h
      exact ⟨hsource, .inr ⟨hxor, rfl⟩⟩
  · cases h

/-- What is put into the slot. -/
def value (t : Transfer) (m : Registers) : BitVec 32 :=
  if t.mixes then m.read t.target ^^^ t.source.value m else t.source.value m

def apply (t : Transfer) (m : Registers) : Registers := m.write t.target (t.value m)

end Transfer

namespace Registers

/-- The registers after an instruction that makes a transfer. -/
def step (m : Registers) (i : Insn) : Registers :=
  match Transfer.ofInsn? i with
  | some t => t.apply m
  | none => m

/-- The registers after some instructions. -/
def after (m : Registers) (insns : List Insn) : Registers := insns.foldl step m

@[simp] theorem after_cons (m : Registers) (i : Insn) (rest : List Insn) :
    m.after (i :: rest) = (m.step i).after rest := rfl

theorem after_append (m : Registers) (l l' : List Insn) :
    m.after (l ++ l') = (m.after l).after l' := foldl_append

theorem step_of_some {i : Insn} {t : Transfer} (h : Transfer.ofInsn? i = some t) (m : Registers) :
    m.step i = t.apply m := by
  rw [step, h]

theorem step_of_none {i : Insn} (h : Transfer.ofInsn? i = none) (m : Registers) :
    m.step i = m := by rw [step, h]

end Registers

/-! ## Constants -/

/-- An instruction puts a constant into all of a register, by a move or by combining it with
itself. -/
def Sets (r : Register) (k : Int) (i : Insn) : Prop :=
  Transfer.ofInsn? i = some ⟨⟨r, .whole⟩, .constant k, false⟩ ∨
    (Transfer.ofInsn? i = some ⟨⟨r, .whole⟩, .slot ⟨r, .whole⟩, true⟩ ∧ k = 0)

/-- An instruction writes no part of a register. -/
def Spares (r : Register) (i : Insn) : Prop :=
  ∀ t, Transfer.ofInsn? i = some t → t.target.register ≠ r

/-- An instruction puts a constant into all of a register, and none after it writes any part of
it. -/
def SetsLast (r : Register) (k : Int) (insns : List Insn) : Prop :=
  ∃ front i rest, insns = front ++ i :: rest ∧ Sets r k i ∧ ∀ j ∈ rest, Spares r j

section Constants

variable {r : Register} {k : Int} {i : Insn} {insns : List Insn}

theorem Sets.step_eq (h : Sets r k i) (m : Registers) : m.step i r = BitVec.ofInt 32 k := by
  rcases h with h | ⟨h, rfl⟩
  · rw [Registers.step_of_some h]
    exact m.write_whole r _
  · rw [Registers.step_of_some h]
    refine (m.write_whole r _).trans ?_
    rw [Transfer.value, if_pos rfl, Source.value, BitVec.xor_self]
    rfl

theorem Spares.step_eq (h : Spares r i) (m : Registers) : m.step i r = m r := by
  cases ht : Transfer.ofInsn? i with
  | none => rw [Registers.step_of_none ht]
  | some t =>
    rw [Registers.step_of_some ht]
    exact m.write_of_ne (h t ht).symm _

theorem after_eq_of_spares (h : ∀ i ∈ insns, Spares r i) (m : Registers) :
    m.after insns r = m r := by
  induction insns generalizing m with
  | nil => rfl
  | cons i rest ih =>
    obtain ⟨hi, hrest⟩ := forall_mem_cons.mp h
    rw [Registers.after_cons, ih hrest, hi.step_eq]

/-- Such a constant is what the register holds in the end. -/
theorem SetsLast.after_eq (h : SetsLast r k insns) (m : Registers) :
    m.after insns r = BitVec.ofInt 32 k := by
  obtain ⟨front, i, rest, rfl, hsets, hspares⟩ := h
  rw [Registers.after_append, Registers.after_cons, after_eq_of_spares hspares, hsets.step_eq]

end Constants

/-! ## Trials -/

namespace Registers

/-- Three states of the registers, bit by bit: what two of them have in common goes out. -/
def mix (x y z : Registers) : Registers := fun r => x r ^^^ y r ^^^ z r

section Mix

variable (x y z : Registers)

theorem read_mix (s : Slot) : (mix x y z).read s = x.read s ^^^ y.read s ^^^ z.read s := by
  ext i hi
  simp only [read, mix, BitVec.getElem_ushiftRight, BitVec.getLsbD_and, BitVec.getLsbD_xor,
    BitVec.getElem_xor]
  cases s.part.mask.getLsbD (s.part.shift + i) <;> simp

theorem write_mix (s : Slot) (u v w : BitVec 32) :
    (mix x y z).write s (u ^^^ v ^^^ w) = mix (x.write s u) (y.write s v) (z.write s w) := by
  funext r
  by_cases hr : r = s.register
  · -- At each bit the mask decides between what was there and what is put there.
    simp only [write, mix, if_pos hr]
    ext i hi
    simp only [BitVec.getElem_or, BitVec.getElem_and, BitVec.getElem_not, BitVec.getElem_xor,
      BitVec.shiftLeft_xor_distrib]
    cases s.part.mask[i] <;> simp
  · simp only [mix, write_of_ne _ hr]

theorem value_mix (t : Transfer) : t.value (mix x y z) = t.value x ^^^ t.value y ^^^ t.value z := by
  have hsource : t.source.value (mix x y z) = t.source.value x ^^^ t.source.value y ^^^
      t.source.value z := by
    cases t.source with
    | slot s => exact read_mix x y z s
    | constant k => simp [Source.value]
  unfold Transfer.value
  split
  · -- Three times two values, which may be combined in any order.
    rw [hsource, read_mix]
    ac_rfl
  · exact hsource

theorem step_mix (i : Insn) : (mix x y z).step i = mix (x.step i) (y.step i) (z.step i) := by
  cases ht : Transfer.ofInsn? i with
  | none => simp only [step_of_none ht]
  | some t => simp only [step_of_some ht, Transfer.apply, value_mix, write_mix]

/-- Instructions may be carried out on each of three states that are put together. -/
theorem after_mix (insns : List Insn) :
    (mix x y z).after insns = mix (x.after insns) (y.after insns) (z.after insns) := by
  induction insns generalizing x y z with
  | nil => rfl
  | cons i rest ih => rw [after_cons, step_mix, ih, after_cons, after_cons, after_cons]

end Mix

/-- All registers hold zero but one. -/
def single (r : Register) (v : BitVec 32) : Registers := fun r' => if r' = r then v else 0

/-- The states to try: none or one bit of the registers is set. -/
def probes : List Registers :=
  (fun _ => 0) :: Register.all.flatMap fun r => (List.range 32).map fun k =>
    single r (BitVec.twoPow 32 k)

theorem zero_mem_probes : (fun _ => 0) ∈ probes := .head _

theorem single_mem_probes (r : Register) {k : Nat} (hk : k < 32) :
    single r (BitVec.twoPow 32 k) ∈ probes :=
  .tail _ (mem_flatMap.mpr ⟨r, r.mem_all, mem_map.mpr ⟨k, mem_range.mpr hk, rfl⟩⟩)

section Probes

variable {P : Registers → Prop} (hmix : ∀ x y z, P x → P y → P z → P (mix x y z))
  (hprobes : ∀ m ∈ probes, P m)

include hmix hprobes

/-- With zero among them, two states can be put together. -/
theorem holds_xor {x y : Registers} (hx : P x) (hy : P y) : P fun r => x r ^^^ y r := by
  have hboth := hmix x y _ hx hy (hprobes _ zero_mem_probes)
  have heq : mix x y (fun _ => 0) = fun r => x r ^^^ y r := by
    funext r
    exact BitVec.xor_zero
  rwa [heq] at hboth

/-- From the bits of one register to its values. -/
theorem holds_single (r : Register) (v : BitVec 32) : P (single r v) := by
  have hnone : P (single r 0) := by
    have hzero : single r 0 = fun _ => 0 := funext fun _ => ite_self 0
    rw [hzero]
    exact hprobes _ zero_mem_probes
  -- The lowest bits of the value, one more at a time.
  have hlow : ∀ n ≤ 32, P (single r ((v.setWidth n).setWidth 32)) := by
    intro n
    induction n with
    | zero =>
      intro _
      have hzero : (v.setWidth 0).setWidth 32 = 0#32 := by
        ext i hi
        simp
      rwa [hzero]
    | succ n ih =>
      intro hn
      have hnext : P (single r (v &&& BitVec.twoPow 32 n)) := by
        rw [BitVec.and_twoPow]
        split
        · exact hprobes _ (single_mem_probes r hn)
        · exact hnone
      have hboth := holds_xor hmix hprobes (ih (by omega)) hnext
      have heq : single r ((v.setWidth (n + 1)).setWidth 32) =
          fun r' => single r ((v.setWidth n).setWidth 32) r' ^^^ single r (v &&& BitVec.twoPow 32 n)
          r' := by
        funext r'
        unfold single
        split
        · ext i hi
          simp only [BitVec.getElem_setWidth, BitVec.getLsbD_setWidth, BitVec.getElem_xor,
            BitVec.getElem_and, BitVec.getElem_twoPow, BitVec.getLsbD_eq_getElem hi]
          by_cases hi' : i = n
          · simp [hi']
          · have hbelow : decide (i < n + 1) = decide (i < n) := decide_eq_decide.mpr (by omega)
            rw [hbelow]
            simp [hi']
        · rfl
      rwa [heq]
  have hall := hlow 32 le_rfl
  rwa [BitVec.setWidth_eq, BitVec.setWidth_eq] at hall

/-- From the values of the single registers to all states. -/
theorem holds_of_probes (m : Registers) : P m := by
  -- The registers of a list, one more at a time.
  have hsome : ∀ l : List Register, P fun r => if r ∈ l then m r else 0 := by
    intro l
    induction l with
    | nil =>
      have hzero : (fun r => if r ∈ [] then m r else 0) = fun _ => 0 :=
        funext fun r => if_neg not_mem_nil
      rw [hzero]
      exact hprobes _ zero_mem_probes
    | cons r₀ rest ih =>
      by_cases hmem : r₀ ∈ rest
      · have heq : (fun r => if r ∈ r₀ :: rest then m r else 0) = fun r =>
            if r ∈ rest then m r else 0 := by
          funext r
          by_cases hr : r = r₀
          · simp [hr, hmem]
          · simp [hr]
        rwa [heq]
      · have heq : (fun r => if r ∈ r₀ :: rest then m r else 0) =
            fun r => (if r ∈ rest then m r else 0) ^^^ single r₀ (m r₀) r := by
          funext r
          by_cases hr : r = r₀
          · simp [hr, hmem, single]
          · simp [hr, single]
        rw [heq]
        exact holds_xor hmix hprobes ih (holds_single hmix hprobes r₀ (m r₀))
  have hall := hsome Register.all
  simpa only [Register.mem_all, if_true] using hall

end Probes

/-- What some instructions leave in a register is always the same if it is in the trials. -/
theorem after_eq_iff_probes (insns : List Insn) (r : Register) (v : BitVec 32) :
    (∀ m : Registers, m.after insns r = v) ↔ ∀ m ∈ probes, Registers.after m insns r = v := by
  refine ⟨fun h m _ => h m, fun h => ?_⟩
  apply holds_of_probes (P := fun m => m.after insns r = v) _ h
  intro x y z hx hy hz
  rw [after_mix, mix, hx, hy, hz, BitVec.xor_self, BitVec.zero_xor]

end Registers

end Decompiler.X86
