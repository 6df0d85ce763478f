import Decompiler.Idiom.LoadImmediate
import Decompiler.Proofs.Numerals
/-!
# What loaded constants do

The machine has registers of 32 bits, of which `zero` reads as zero and ignores what is written to
it. Instructions that add, merge or place a constant have their usual effect, all others may do
anything (`step`). A pseudo instruction does what its text says: `li $r, v` puts `v` into `r`
(`itemStep`).

Replacing loads of constants in a block keeps what the block does (`loads_keep_state`). The pass
looks at an instruction and the one before it, so it is enough that one pseudo instruction does what
they do together (`loadItem_effect`), and that a half that is taken back still stands at the end of
what has been put out.
-/

namespace Decompiler.Mips

open List

/-! ## The machine -/

/-- What instructions change: registers, by name, and all else. -/
structure Machine (ρ : Type) where
  registers : String → BitVec 32
  rest : ρ

namespace Machine

variable {ρ : Type}

/-- What a register reads as. -/
def read (m : Machine ρ) (r : String) : BitVec 32 := if r = "zero" then 0 else m.registers r

/-- Puts a value into a register. -/
def write (m : Machine ρ) (r : String) (v : BitVec 32) : Machine ρ :=
  if r = "zero" then m else { m with registers := fun r' => if r' = r then v else m.registers r' }

/-- Changing the register that was written last. -/
theorem write_again (m : Machine ρ) (r : String) (u : BitVec 32) (f : BitVec 32 → BitVec 32) :
    (m.write r u).write r (f ((m.write r u).read r)) = m.write r (f u) := by
  by_cases h : r = "zero"
  · simp [write, h]
  · simp only [write, read, h, if_false, if_true, mk.injEq, and_true]
    funext r'
    by_cases hr : r' = r <;> simp [hr]

end Machine

variable {ρ : Type}

/-- What an instruction does. The constants of `ADDIU` have a sign, those of `ORI` do not, and `LUI`
places its constant in the upper half; `others` says what all other instructions do. -/
def step (others : Insn → Machine ρ → Machine ρ) (i : Insn) (m : Machine ρ) : Machine ρ :=
  match i.operands.map Operand.value with
  | [.register rd _, .register rs _, .immediate k] =>
    if i.opcode = "ADDIU" then m.write rd (m.read rs + BitVec.ofInt 32 k)
    else if i.opcode = "ORI" then m.write rd (m.read rs ||| BitVec.ofInt 32 k)
    else others i m
  | [.register rd _, .immediate k] =>
    if i.opcode = "LUI" then m.write rd (BitVec.ofInt 32 k <<< 16) else others i m
  | _ => others i m

/-- The number that a text gives, in hexadecimal if it has a radix mark. -/
def readNumber? (s : String) : Option Int :=
  if 'x' ∈ s.toList then Text.hexadecimal? s else Text.decimal? s

/-- Register and number of a text `li $r, v`. -/
def readLoad? (text : String) : Option (String × Int) :=
  match text.toList with
  | 'l' :: 'i' :: ' ' :: '$' :: rest =>
    match rest.dropWhile (· ≠ ',') with
    | ',' :: ' ' :: number =>
      (readNumber? (String.ofList number)).map fun v =>
        (String.ofList (rest.takeWhile (· ≠ ',')), v)
    | _ => none
  | _ => none

/-- What an item of a block does. -/
def itemStep (others : Insn → Machine ρ → Machine ρ) : Item → Machine ρ → Machine ρ
  | .insn i, m => step others i m
  | .gap, m => m
  | .pseudo text _, m =>
    match readLoad? text with
    | some (r, v) => m.write r (BitVec.ofInt 32 v)
    | none => m

/-- What the items of a block do, one after the other. -/
def run (others : Insn → Machine ρ → Machine ρ) (items : List Item) (m : Machine ρ) : Machine ρ :=
  items.foldl (fun m item => itemStep others item m) m

section

variable (others : Insn → Machine ρ → Machine ρ)
include others

@[simp] theorem run_nil (m : Machine ρ) : run others [] m = m := rfl

@[simp] theorem run_cons (item : Item) (l : List Item) (m : Machine ρ) :
    run others (item :: l) m = run others l (itemStep others item m) := rfl

@[simp] theorem itemStep_insn (i : Insn) (m : Machine ρ) :
    itemStep others (.insn i) m = step others i m := rfl

@[simp] theorem itemStep_gap (m : Machine ρ) : itemStep others .gap m = m := rfl

theorem run_append (l l' : List Item) (m : Machine ρ) :
    run others (l ++ l') m = run others l' (run others l m) := foldl_append

end

/-! ## The text of a load -/

theorem readNumber?_hex (v : Int) : readNumber? (Text.hex v) = some v := by
  have hx : 'x' ∈ (Text.hex v).toList := by simp [Text.toList_hex]
  rw [readNumber?, if_pos hx, Text.hexadecimal?_hex]

variable {v : Int} {r : String} {op : Operand}

theorem readNumber?_toString (h : v.natAbs < 10 ^ Text.maxDecimalDigits) :
    readNumber? (toString v) = some v := by
  have hx : 'x' ∉ (toString v).toList := by
    intro hx
    rw [Text.toList_toString] at hx
    rcases mem_append.mp hx with hx | hx
    · split at hx
      · exact absurd (mem_singleton.mp hx) (by decide)
      · cases hx
    · exact absurd (Nat.isDigit_of_mem_toDigits (by decide) (by decide) hx) (by decide)
  rw [readNumber?, if_neg hx, Text.decimal?_toString h]

theorem readLoad?_eq {s : String} (hr : ',' ∉ r.toList) (hs : readNumber? s = some v) :
    readLoad? ("li $" ++ r ++ ", " ++ s) = some (r, v) := by
  have hlist : ("li $" ++ r ++ ", " ++ s).toList = 'l' :: 'i' :: ' ' :: '$' ::
      (r.toList ++ ',' :: ' ' :: s.toList) := by
    simp
  have hname : ∀ c ∈ r.toList, decide (c ≠ ',') = true := by
    intro c hc
    exact decide_eq_true fun h => hr (h ▸ hc)
  have hdrop : (r.toList ++ ',' :: ' ' :: s.toList).dropWhile (· ≠ ',') = ',' :: ' ' ::
      s.toList := by
    rw [dropWhile_append_of_pos hname, dropWhile_cons_of_neg (by decide)]
  have htake : (r.toList ++ ',' :: ' ' :: s.toList).takeWhile (· ≠ ',') = r.toList := by
    rw [takeWhile_append_of_pos hname, takeWhile_cons_of_neg (by decide), append_nil]
  unfold readLoad?
  simp only [hlist, hdrop, htake, String.ofList_toList, hs, Option.map_some]

/-- A text `li $r, v` puts the number into the register. -/
theorem itemStep_load (others : Insn → Machine ρ → Machine ρ) {s : String} (hr : ',' ∉ r.toList)
    (hs : readNumber? s = some v) (parts : List Insn) (m : Machine ρ) :
    itemStep others (.pseudo ("li $" ++ r ++ ", " ++ s) parts) m =
      m.write r (BitVec.ofInt 32 v) := by
  simp only [itemStep, readLoad?_eq hr hs]

/-! ## Halves -/

theorem ofInt_shiftLeft_add (high low : Int) :
    BitVec.ofInt 32 high <<< 16 + BitVec.ofInt 32 low = BitVec.ofInt 32 (high * 65536 + low) := by
  have hshift : BitVec.ofInt 32 high <<< 16 = BitVec.ofInt 32 (high * 65536) := by
    rw [BitVec.shiftLeft_eq_mul_twoPow, BitVec.ofInt_mul]
    rfl
  rw [hshift, BitVec.ofInt_add]

/-- Halves that do not overlap are merged by adding them. -/
theorem ofInt_shiftLeft_or (high : Int) {low : Int} (hlow : 0 ≤ low ∧ low ≤ 65535) :
    BitVec.ofInt 32 high <<< 16 ||| BitVec.ofInt 32 low = BitVec.ofInt 32 (high * 65536 + low) := by
  have hand : BitVec.ofInt 32 high <<< 16 &&& BitVec.ofInt 32 low = 0#32 := by
    obtain ⟨n, rfl⟩ := Int.eq_ofNat_of_zero_le hlow.1
    have hn : n < 2 ^ 16 := by omega
    refine BitVec.eq_of_getLsbD_eq fun k hk => ?_
    by_cases hlower : k < 16
    · simp [hlower]
    · have hbit : n.testBit k = false :=
        Nat.testBit_lt_two_pow (lt_of_lt_of_le hn
          (Nat.pow_le_pow_right (by decide) (not_lt.mp hlower)))
      simp [BitVec.getLsbD_ofNat, hbit]
  rw [← BitVec.add_eq_or_of_and_eq_zero _ _ hand, ofInt_shiftLeft_add]

/-! ## Forms of instructions -/

/-- An instruction as the machine has it: as many operands as the operation takes, register names
without a comma, and constants that fit into a half with or without a sign. -/
@[mk_iff]
structure Formed (i : Insn) : Prop where
  three : addsConstant i = true → i.operands.length = 3
  two : i.opcode = "LUI" → i.operands.length = 2
  named : ∀ op ∈ i.operands, ∀ r ∈ op.register?, ',' ∉ r.toList
  signed : i.opcode = "ADDIU" → ∀ op ∈ i.operands, op.isImmediate = true → -32768 ≤ op.number ∧
    op.number ≤ 32767
  unsigned : i.opcode = "ORI" → ∀ op ∈ i.operands, op.isImmediate = true → 0 ≤ op.number ∧
    op.number ≤ 65535

instance (i : Insn) : Decidable (Formed i) := decidable_of_iff _ (formed_iff i).symm

theorem exists_of_register? (h : op.register? = some r) : ∃ n, op.value = .register r n := by
  unfold Operand.register? at h
  split at h
  · rename_i name n hvalue
    exact ⟨n, by rw [hvalue, Option.some.inj h]⟩
  · cases h

theorem value_of_isImmediate (h : op.isImmediate = true) : op.value = .immediate op.number := by
  unfold Operand.isImmediate at h
  split at h
  · rename_i v hvalue
    rw [Operand.number, hvalue]
  · cases h

/-- Three operands can be asked for their form. -/
theorem constantForm_of_three {i : Insn} (h : i.operands.length = 3) : constantForm i = .ok none ∨
    ∃ rd rs k, constantForm i = .ok (some (rd, rs, k)) ∧ (∃ a ∈ i.operands, a.register? = some rd) ∧
      (∃ c ∈ i.operands, c.isImmediate = true ∧ c.number = k) ∧
      ∃ n n', i.operands.map Operand.value = [.register rd n, .register rs n', .immediate k] := by
  obtain ⟨a, b, c, habc⟩ := length_eq_three.mp h
  have h₀ : i.operand 0 = .ok a := by simp [Insn.operand, position?, habc]
  have h₁ : i.operand 1 = .ok b := by simp [Insn.operand, position?, habc]
  have h₂ : i.operand 2 = .ok c := by simp [Insn.operand, position?, habc]
  simp only [constantForm, h₀, h₁, h₂, bind, Except.bind, pure, Except.pure]
  cases ha : a.register? with
  | none => exact .inl rfl
  | some rd =>
    cases hb : b.register? with
    | none => exact .inl rfl
    | some rs =>
      by_cases hc : c.isImmediate = true
      · obtain ⟨n, hn⟩ := exists_of_register? ha
        obtain ⟨n', hn'⟩ := exists_of_register? hb
        refine .inr ⟨rd, rs, c.number, by simp [hc], ⟨a, by simp [habc], ha⟩,
          ⟨c, by simp [habc], hc, rfl⟩, n, n', ?_⟩
        simp [habc, hn, hn', value_of_isImmediate hc]
      · exact .inl (by simp [hc])

/-- Two operands can be asked for their form. -/
theorem upperForm_of_two {i : Insn} (h : i.operands.length = 2) : upperForm i = .ok none ∨
    ∃ rd k n, upperForm i = .ok (some (rd, k)) ∧
      i.operands.map Operand.value = [.register rd n, .immediate k] := by
  obtain ⟨a, b, hab⟩ := length_eq_two.mp h
  have h₀ : i.operand 0 = .ok a := by simp [Insn.operand, position?, hab]
  have h₁ : i.operand 1 = .ok b := by simp [Insn.operand, position?, hab]
  simp only [upperForm, h₀, h₁, bind, Except.bind, pure, Except.pure]
  cases ha : a.register? with
  | none => exact .inl rfl
  | some rd =>
    by_cases hb : b.isImmediate = true
    · obtain ⟨n, hn⟩ := exists_of_register? ha
      exact .inr ⟨rd, b.number, n, by simp [hb], by simp [hab, hn, value_of_isImmediate hb]⟩
    · exact .inl (by simp [hb])

/-! ## The pass -/

variable (others : Insn → Machine ρ → Machine ρ) {i upper : Insn}

theorem addsConstant_iff :
    addsConstant i = true ↔ i.opcode = "ADDIU" ∨ i.opcode = "ORI" := by simp [addsConstant]

theorem Formed.fits (h : Formed i) (hadds : addsConstant i = true) (hop : op ∈ i.operands)
    (himm : op.isImmediate = true) : op.number.natAbs < 10 ^ Text.maxDecimalDigits := by
  have hlt : op.number.natAbs < 10 ^ 5 := by
    rcases addsConstant_iff.mp hadds with hop' | hop'
    · have := h.signed hop' op hop himm
      omega
    · have := h.unsigned hop' op hop himm
      omega
  exact lt_of_lt_of_le hlt (Nat.pow_le_pow_right (by decide) (by decide))

/-- A constant added to the zero register is what the pseudo instruction loads. -/
theorem loadSingle_effect (h : Formed i) (hadds : addsConstant i = true) : loadSingle i = .ok none ∨
    ∃ item, loadSingle i = .ok (some item) ∧ ∀ m, itemStep others item m = step others i m := by
  unfold loadSingle
  obtain hform | ⟨rd, rs, _, hform, ⟨a, ha, hrd⟩, ⟨c, hc, himm, rfl⟩, n, n', hvalues⟩ :=
    constantForm_of_three (h.three hadds) <;>
      simp only [hform, bind, Except.bind, pure, Except.pure]
  · exact .inl trivial
  · by_cases hzero : rs = "zero"
    · refine .inr ⟨_, by rw [if_pos hzero], fun m => ?_⟩
      rw [itemStep_load others (h.named a ha rd hrd) (readNumber?_toString (h.fits hadds hc himm))]
      have hread : m.read rs = 0 := if_pos hzero
      simp only [step, hvalues, hread]
      rcases addsConstant_iff.mp hadds with hop | hop <;> simp [hop]
    · exact .inl (by simp [hzero])

/-- A constant loaded in two halves is what the pseudo instruction loads. -/
theorem loadPair_effect (h : Formed i) (hadds : addsConstant i = true) (hupper : Formed upper)
    (hlui : upper.opcode = "LUI") :
    loadPair upper i = .ok none ∨ ∃ item, loadPair upper i = .ok (some item) ∧
    ∀ m, itemStep others item m = step others i (step others upper m) := by
  unfold loadPair
  obtain hform | ⟨rd, rs, _, hform, ⟨a, ha, hrd⟩, ⟨c, hc, himm, rfl⟩, n, n', hvalues⟩ :=
    constantForm_of_three (h.three hadds) <;>
      simp only [hform, bind, Except.bind, pure, Except.pure]
  · exact .inl trivial
  · by_cases hsame : rd = rs
    · subst hsame
      simp only [ne_eq, not_true_eq_false, if_false]
      obtain hform' | ⟨ru, high, n'', hform', hvalues'⟩ :=
        upperForm_of_two (hupper.two hlui) <;> simp only [hform']
      · exact .inl trivial
      · by_cases hru : ru = rd
        · subst hru
          refine .inr ⟨_, by rw [if_pos rfl], fun m => ?_⟩
          rw [itemStep_load others (h.named a ha ru hrd) (readNumber?_hex _)]
          simp only [step, hvalues, hvalues', if_pos hlui]
          rcases addsConstant_iff.mp hadds with hop | hop
          · rw [if_pos hop, m.write_again ru _ (· + BitVec.ofInt 32 c.number), ofInt_shiftLeft_add]
          · rw [if_neg (by simp [hop]), if_pos hop,
              m.write_again ru _ (· ||| BitVec.ofInt 32 c.number),
              ofInt_shiftLeft_or high (h.unsigned hop c hc himm)]
        · exact .inl (by simp [hru])
    · exact .inl (by simp [hsame])

/-- What becomes of an instruction does what the instruction does, or what it and the half before it
do. -/
theorem loadItem_effect (h : Formed i) (previous : Option Insn)
    (hprevious : ∀ upper, previous = some upper → Formed upper) :
    ∃ absorbs item, loadItem previous i = .ok (absorbs, item) ∧
    (i.opcode = "LUI" → absorbs = false ∧ item = .insn i) ∧
    (absorbs = false → ∀ m, itemStep others item m = step others i m) ∧
    (absorbs = true → ∃ upper, previous = some upper ∧ upper.opcode = "LUI" ∧
      ∀ m, itemStep others item m = step others i (step others upper m)) := by
  by_cases hkept : loadItem previous i = .ok (false, .insn i)
  · exact ⟨false, .insn i, hkept, fun _ => ⟨rfl, rfl⟩, fun _ m => rfl, fun h => by cases h⟩
  -- What is replaced adds a constant.
  have hadds : addsConstant i = true := by
    by_contra hadds
    exact hkept (if_neg hadds)
  have hlui : i.opcode ≠ "LUI" := by
    intro hlui
    simp [addsConstant, hlui] at hadds
  rw [loadItem, if_pos hadds] at hkept ⊢
  cases hfilter : previous.filter (·.opcode = "LUI") with
  | none =>
    rw [hfilter] at hkept
    obtain hitem | ⟨item, hitem, hspec⟩ := loadSingle_effect others h hadds
    · exact absurd (by rw [hitem]; rfl) hkept
    · exact ⟨false, item, by rw [hitem]; rfl, fun h => absurd h hlui, fun _ => hspec,
        fun h => by cases h⟩
  | some upper =>
    rw [hfilter] at hkept
    dsimp only at hkept ⊢
    obtain ⟨hprev, hop⟩ := Option.filter_eq_some_iff.mp hfilter
    have hop : upper.opcode = "LUI" := of_decide_eq_true hop
    obtain hitem | ⟨item, hitem, hspec⟩ :=
      loadPair_effect others h hadds (hprevious upper hprev) hop
    · exact absurd (by rw [hitem]; rfl) hkept
    · exact ⟨true, item, by rw [hitem]; rfl, fun h => absurd h hlui, fun h => (by cases h),
        fun _ => ⟨upper, hprev, hop, hspec⟩⟩

/-- What is put out, followed by what is left, does the same in the end. A half that may be taken
back is still there. -/
theorem run_loadsFrom :
    ∀ (rest : List Insn) (previous : Option Insn) (out : List Item), (∀ i ∈ rest, Formed i) →
    (∀ upper, previous = some upper → Formed upper ∧
      (upper.opcode = "LUI" → ∃ out', out = .insn upper :: out')) →
    (loadsFrom previous out (rest.map .insn)).fault = none ∧ ∀ m : Machine ρ,
      run others (loadsFrom previous out (rest.map .insn)).value m =
        run others (out.reverse ++ rest.map .insn) m := by
  intro rest
  induction rest with
  | nil =>
    intro previous out _ _
    exact ⟨rfl, fun m => by rw [map_nil, append_nil]; rfl⟩
  | cons i rest ih =>
    intro previous out hrest hprevious
    obtain ⟨absorbs, item, hitem, hkept, hsingle, hpair⟩ :=
      loadItem_effect others (hrest i (.head _))
      previous fun upper hupper => (hprevious upper hupper).1
    have hnext : ∀ out₀ : List Item, ∀ upper, some i = some upper →
        Formed upper ∧ (upper.opcode = "LUI" → ∃ out', item :: out₀ = .insn upper :: out') := by
      rintro out₀ _ ⟨⟩
      exact ⟨hrest i (.head _), fun hlui => ⟨out₀, by rw [(hkept hlui).2]⟩⟩
    rw [map_cons, loadsFrom, hitem]
    dsimp only
    obtain ⟨hfault, hrun⟩ := ih (some i) (item :: if absorbs then .gap :: out.tail else out)
      (forall_mem_cons.mp hrest).2 (hnext _)
    refine ⟨hfault, fun m => (hrun m).trans ?_⟩
    cases absorbs with
    | false =>
      simp only [Bool.false_eq_true, if_false, reverse_cons, append_assoc, singleton_append,
        run_append, run_cons, hsingle rfl, itemStep_insn]
    | true =>
      obtain ⟨upper, hupper, hlui, heffect⟩ := hpair rfl
      obtain ⟨out', rfl⟩ := (hprevious upper hupper).2 hlui
      simp only [if_true, tail_cons, reverse_cons, append_assoc, cons_append,
        run_append, run_cons, run_nil, itemStep_gap, heffect, itemStep_insn]

/-- Replacing loads of constants in a block goes through and keeps what the block does. -/
theorem loads_keep_state {insns : List Insn} (h : ∀ i ∈ insns, Formed i) (m : Machine ρ) :
    (loadsFrom none [] (insns.map .insn)).fault = none ∧
    run others (loadsFrom none [] (insns.map .insn)).value m = run others (insns.map .insn) m := by
  obtain ⟨hfault, hrun⟩ := run_loadsFrom others insns none [] h fun upper hupper => by cases hupper
  exact ⟨hfault, hrun m⟩

/-- An instruction on a register, and perhaps another one, with a constant. -/
def constantInsn (addr : Int) (opcode : String) (registers : List String) (k : Int) : Insn where
  addr := addr
  bytes := [0, 0, 0, 0]
  opcode := opcode
  mnemonic := opcode
  opText := ""
  operands := registers.map (fun r => ⟨.register r 0, 0, none⟩) ++ [⟨.immediate k, 0, none⟩]
  jumpGroup := false
  callGroup := false
  retGroup := false
  repetition := none
  condition := ""
  setsFlags := false
  readsPc := false

/-- A constant in two halves, the lower one negative; something that uses it; and a constant to
which bits are added. -/
def twoLoads : List Insn :=
  [constantInsn 0 "LUI" ["v0"] 1, constantInsn 4 "ADDIU" ["v0", "v0"] (-4),
    constantInsn 8 "SLTI" ["v1", "v0"] 9,
   constantInsn 12 "ORI" ["a0", "zero"] 0x8000, constantInsn 16 "ORI" ["a0", "a0"] 7]

/-- The halves are put together and the added bits stay; in between, the constant is where it is
expected. -/
theorem loads_keep_state_twoLoads :
    let others : Insn → Machine Unit → Machine Unit := fun _ m => m.write "v1" (m.read "v0" - 9)
    let loaded := (loadsFrom none [] (twoLoads.map .insn)).value
    let m : Machine Unit := ⟨fun _ => 5, ()⟩
    (∀ i ∈ twoLoads, Formed i) ∧
    loaded = [.gap, .pseudo "li $v0, 0xfffc" (twoLoads.take 2),
      .insn (constantInsn 8 "SLTI" ["v1", "v0"] 9),
      .pseudo "li $a0, 32768" [constantInsn 12 "ORI" ["a0", "zero"] 0x8000],
      .insn (constantInsn 16 "ORI" ["a0", "a0"] 7)] ∧
    run others loaded m = run others (twoLoads.map .insn) m ∧
    ["v0", "v1", "a0", "a1"].map (run others loaded m).read = [0xfffc, 0xfff3, 0x8007, 5] := by
  have hformed : ∀ i ∈ twoLoads, Formed i := by decide +kernel
  refine ⟨hformed, by decide +kernel, (loads_keep_state _ hformed _).2, ?_⟩
  rw [(loads_keep_state _ hformed _).2]
  decide +kernel

end Decompiler.Mips
