import Decompiler.Proofs.Columns
import Decompiler.Proofs.OneByteCode
import Mathlib.Data.BitVec
/-!
# What conditions say about flags

A conditional jump tests flags that a comparison has set, and a printed condition shows the
comparison with the sign of the jump between its operands. Here are the flags, the tests of the
jumps (`takes`), and what the signs say of the operands (`holds`). The ten signs of equality and of
signed and unsigned order say what the jumps test, at every width (`order_says`). The sign of `JS`
does so if the comparison is with zero. Those of `JNS`, `JP`, `JNP`, `JO` and `JNO` do not. Which
sign an `if` shows, and when it says what the jump tests, is put together in
`printed_condition_iff`.
-/

namespace Decompiler

open List

variable {c jump : String}

namespace X86

/-! ## Flags -/

/-- The flags that conditional jumps test. -/
structure Flags where
  zero : Bool
  sign : Bool
  carry : Bool
  overflow : Bool
  parity : Bool
  deriving DecidableEq, Repr

variable {w : Nat}

/-- Whether the number of ones in the low byte is even. -/
def evenLowByte (r : BitVec w) : Bool := (List.range 8).countP (r.getLsbD ·) % 2 = 0

/-- The flags after a comparison: those of the difference. -/
def Flags.ofCmp (a b : BitVec w) : Flags where
  zero := a - b = 0
  sign := (a - b).msb
  carry := a.ult b
  overflow := a.ssubOverflow b
  parity := evenLowByte (a - b)

/-- The flags after a test: those of the common bits. -/
def Flags.ofTest (a b : BitVec w) : Flags where
  zero := a &&& b = 0
  sign := (a &&& b).msb
  carry := false
  overflow := false
  parity := evenLowByte (a &&& b)

/-- What the conditional jumps test. -/
def Flags.tests (f : Flags) : List (String × Bool) :=
  [("JE", f.zero), ("JNE", !f.zero),
   ("JGE", f.sign == f.overflow), ("JL", f.sign != f.overflow),
   ("JLE", f.zero || f.sign != f.overflow), ("JG", !f.zero && f.sign == f.overflow),
   ("JNS", !f.sign), ("JS", f.sign), ("JAE", !f.carry), ("JB", f.carry),
   ("JBE", f.carry || f.zero), ("JA", !f.carry && !f.zero),
   ("JP", f.parity), ("JNP", !f.parity), ("JO", f.overflow), ("JNO", !f.overflow)]

/-- Whether a jump is taken. -/
def takes (f : Flags) (jump : String) : Option Bool := f.tests.lookup jump

/-! ## Signs -/

/-- What the signs say of their operands. An overflow is that of the difference. -/
def relations (a b : BitVec w) : List (String × Bool) :=
  [("==", a == b), ("!=", a != b), (">=", b.sle a), ("<", a.slt b), ("<=", a.sle b), (">", b.slt a),
   ("(unsigned) >=", b.ule a), ("(unsigned) >", b.ult a), ("(unsigned) <=", a.ule b),
   ("(unsigned) <", a.ult b), ("% 2 ==", a.srem 2 == b), ("% 2 !=", a.srem 2 != b),
   ("overflow", a.ssubOverflow b), ("!overflow", !a.ssubOverflow b)]

/-- Whether a sign holds between two operands. -/
def holds (sign : String) (a b : BitVec w) : Option Bool := (relations a b).lookup sign

/-- A test of a value with itself sets the flags of a comparison with zero. -/
theorem Flags.ofTest_self (a : BitVec w) : Flags.ofTest a a = Flags.ofCmp a 0 := by
  have hcarry : a.ult 0#w = false := by simp [BitVec.ult]
  have hover : a.ssubOverflow 0#w = false := by simp [BitVec.ssubOverflow_eq]
  simp [Flags.ofTest, Flags.ofCmp, hcarry, hover]

theorem zero_eq_beq (a b : BitVec w) : decide (a - b = 0) = (a == b) := by
  rw [Bool.eq_iff_iff, decide_eq_true_iff, beq_iff_eq, sub_eq_zero]

/-- The sign flag and the overflow flag differ exactly if the difference is negative as a whole
number. -/
theorem sign_bne_overflow (a b : BitVec w) : ((a - b).msb != a.ssubOverflow b) = a.slt b := by
  cases hover : a.ssubOverflow b with
  | false =>
    have hsub := BitVec.toInt_sub_of_not_ssubOverflow (by simp [hover] : ¬ a.ssubOverflow b = true)
    rw [Bool.bne_false, BitVec.msb_eq_toInt, hsub, BitVec.slt]
    congr 1
    rw [eq_iff_iff]
    omega
  | true =>
    -- The operands have different signs, and the difference has that of the second.
    rw [BitVec.ssubOverflow_eq] at hover
    simp only [Bool.or_eq_true, Bool.and_eq_true, Bool.not_eq_true'] at hover
    rw [BitVec.slt]
    obtain ⟨⟨ha, hb⟩, hmsb⟩ | ⟨⟨ha, hb⟩, hmsb⟩ := hover
    · rw [BitVec.msb_eq_toInt, decide_eq_false_iff_not] at ha
      rw [BitVec.msb_eq_toInt, decide_eq_true_iff] at hb
      rw [hmsb, decide_eq_false (by omega)]
      rfl
    · rw [BitVec.msb_eq_toInt, decide_eq_true_iff] at ha
      rw [BitVec.msb_eq_toInt, decide_eq_false_iff_not] at hb
      rw [hmsb, decide_eq_true (by omega)]
      rfl

theorem sign_beq_overflow (a b : BitVec w) : ((a - b).msb == a.ssubOverflow b) = b.sle a := by
  rw [BitVec.sle_eq_not_slt, ← sign_bne_overflow, bne, Bool.not_not]

theorem sle_eq_beq_or_slt (a b : BitVec w) : a.sle b = (a == b || a.slt b) := by
  rw [Bool.eq_iff_iff, Bool.or_eq_true, beq_iff_eq, BitVec.sle_iff_toInt_le,
    BitVec.slt_iff_toInt_lt, ← BitVec.toInt_inj]
  omega

theorem ule_eq_ult_or_beq (a b : BitVec w) : a.ule b = (a.ult b || a == b) := by
  rw [Bool.eq_iff_iff, Bool.or_eq_true, beq_iff_eq, BitVec.ule_iff_toNat_le,
    BitVec.ult_iff_toNat_lt, ← BitVec.toNat_inj]
  omega

theorem slt_eq_not_beq_and_sle (a b : BitVec w) : b.slt a = (!(a == b) && b.sle a) := by
  rw [← Bool.not_not (b.slt a), ← BitVec.sle_eq_not_slt, sle_eq_beq_or_slt, BitVec.sle_eq_not_slt,
    Bool.not_or]

theorem ult_eq_not_ult_and_beq (a b : BitVec w) : b.ult a = (!(a.ult b) && !(a == b)) := by
  rw [← Bool.not_not (b.ult a), ← BitVec.ule_eq_not_ult, ule_eq_ult_or_beq, Bool.not_or]

/-- The jumps whose signs say what they test. -/
def orderJumps : List String := ["JE", "JNE", "JGE", "JL", "JLE", "JG", "JAE", "JB", "JBE", "JA"]

variable {c : String}

/-- The signs of equality and order say what the jumps test. -/
theorem order_says (h : c ∈ orderJumps) (a b : BitVec w) :
    holds (symbol c) a b = takes (Flags.ofCmp a b) c := by
  have hzero : (Flags.ofCmp a b).zero = (a == b) := zero_eq_beq a b
  have hless : ((Flags.ofCmp a b).sign != (Flags.ofCmp a b).overflow) = a.slt b :=
    sign_bne_overflow a b
  have hnotless : ((Flags.ofCmp a b).sign == (Flags.ofCmp a b).overflow) = b.sle a :=
    sign_beq_overflow a b
  have hcarry : (Flags.ofCmp a b).carry = a.ult b := rfl
  -- One case for each jump; they test nothing but the zero flag, the carry, and whether sign and
  -- overflow differ.
  simp only [orderJumps, mem_cons, not_mem_nil, or_false] at h
  obtain rfl | rfl | rfl | rfl | rfl | rfl | rfl | rfl | rfl | rfl := h
  · exact congrArg some hzero.symm
  · exact congrArg (fun e => some !e) hzero.symm
  · exact congrArg some hnotless.symm
  · exact congrArg some hless.symm
  · show some (a.sle b) = some ((Flags.ofCmp a b).zero ||
      (Flags.ofCmp a b).sign != (Flags.ofCmp a b).overflow)
    rw [hzero, hless, sle_eq_beq_or_slt]
  · show some (b.slt a) = some (!(Flags.ofCmp a b).zero && (Flags.ofCmp a b).sign ==
      (Flags.ofCmp a b).overflow)
    rw [hzero, hnotless, slt_eq_not_beq_and_sle]
  · exact congrArg some (BitVec.ule_eq_not_ult b a)
  · exact congrArg some hcarry.symm
  · show some (a.ule b) = some ((Flags.ofCmp a b).carry || (Flags.ofCmp a b).zero)
    rw [hzero, hcarry, ule_eq_ult_or_beq]
  · show some (b.ult a) = some (!(Flags.ofCmp a b).carry && !(Flags.ofCmp a b).zero)
    rw [hzero, hcarry, ult_eq_not_ult_and_beq]

/-- Compared with zero, the sign of `JS` says what it tests. -/
theorem sign_says_of_zero (a : BitVec w) :
    holds (symbol "JS") a 0 = takes (Flags.ofCmp a 0) "JS" := by
  show some (a.slt 0#w) = some (a - 0#w).msb
  rw [BitVec.sub_zero, BitVec.msb_eq_toInt, BitVec.slt, BitVec.toInt_zero]

/-- The jumps whose signs say something else, also if compared with zero. -/
def oddJumps : List String := ["JNS", "JP", "JNP", "JO", "JNO"]

/-- The widths of operands. -/
def widths : List Nat := [8, 16, 32, 64]

/-- Zero shows it for `JNS`, `JO` and `JNO`: it is not negative and not greater than zero. Three
does for the parity: it has two ones, and is odd. -/
theorem odd_differ (h : c ∈ oddJumps) (hw : w ∈ widths) :
    ∃ a : BitVec w, holds (symbol c) a 0 ≠ takes (Flags.ofCmp a 0) c := by
  have hall : ∀ w ∈ widths, ∀ c ∈ oddJumps, holds (symbol c) (0 : BitVec w) 0 ≠
      takes (Flags.ofCmp (0 : BitVec w) 0) c ∨
      holds (symbol c) (3 : BitVec w) 0 ≠ takes (Flags.ofCmp (3 : BitVec w) 0) c := by decide
  rcases hall w hw c h with hzero | hthree
  · exact ⟨0, hzero⟩
  · exact ⟨3, hthree⟩

/-- The least number less one is the greatest. -/
theorem sign_differs (hw : w ∈ widths) :
    ∃ a b : BitVec w, holds (symbol "JS") a b ≠ takes (Flags.ofCmp a b) "JS" := by
  have hall : ∀ w ∈ widths, holds (symbol "JS") (BitVec.intMin w) 1 ≠
      takes (Flags.ofCmp (BitVec.intMin w) 1) "JS" := by
    decide
  exact ⟨_, _, hall w hw⟩

theorem jump_cases (h : c ∈ opposites.map Prod.fst) : c ∈ orderJumps ∨ c = "JS" ∨ c ∈ oddJumps := by
  have hall : ∀ c ∈ opposites.map Prod.fst, c ∈ orderJumps ∨ c = "JS" ∨ c ∈ oddJumps := by decide
  exact hall c h

/-- Which signs say of the operands of a comparison what their jumps test. -/
theorem sign_says_iff (hc : c ∈ opposites.map Prod.fst) (hw : w ∈ widths) :
    (∀ a b : BitVec w, holds (symbol c) a b = takes (Flags.ofCmp a b) c) ↔ c ∈ orderJumps := by
  refine ⟨fun h => ?_, fun hmem => order_says hmem⟩
  obtain hmem | rfl | hodd := jump_cases hc
  · exact hmem
  · obtain ⟨a, b, hdiffers⟩ := sign_differs hw
    exact absurd (h a b) hdiffers
  · obtain ⟨a, hdiffers⟩ := odd_differ hodd hw
    exact absurd (h a 0) hdiffers

/-- Which signs do so if the comparison is with zero. -/
theorem sign_says_zero_iff (hc : c ∈ opposites.map Prod.fst) (hw : w ∈ widths) :
    (∀ a : BitVec w, holds (symbol c) a 0 = takes (Flags.ofCmp a 0) c) ↔
      c ∈ "JS" :: orderJumps := by
  constructor
  · intro h
    obtain hmem | rfl | hodd := jump_cases hc
    · exact .tail _ hmem
    · exact (.head _)
    · obtain ⟨a, hdiffers⟩ := odd_differ hodd hw
      exact absurd (h a) hdiffers
  · intro hmem a
    rcases mem_cons.mp hmem with rfl | hmem
    · exact sign_says_of_zero a
    · exact order_says hmem a 0

/-- A jump is taken exactly if its opposite is not. -/
theorem takes_opposite (h : opposites.lookup jump = some c) (f : Flags) :
    takes f c = (takes f jump).map (!·) := by
  have hall : ∀ e ∈ opposites, takes f e.2 = (takes f e.1).map (!·) := by
    simp [opposites, takes, Flags.tests, lookup_cons, bne]
  obtain ⟨l, l', hmem, -⟩ := lookup_eq_some_iff.mp h
  exact hall (jump, c) (by rw [hmem]; simp)

end X86

/-! ## Printed conditions -/

namespace Listing

instance : LawfulMonad Listing := LawfulMonad.mk' Listing
  (fun l => by
    obtain ⟨pieces, result⟩ := l
    cases result with
    | error e => rfl
    | ok a => exact congrArg (Listing.mk · (.ok a)) (append_nil pieces))
  (fun _ _ => rfl)
  (fun l f g => by
    obtain ⟨pieces, result⟩ := l
    cases result with
    | error e => rfl
    | ok a =>
      simp only [bind, andThen]
      cases (f a).result with
      | error e => rfl
      | ok b => exact congrArg (Listing.mk · (g b).result) (append_assoc _ _ _))

variable {α β : Type}

/-- The text of two listings in a row, if they end well. -/
theorem render_bind {l : Listing α} {f : α → Listing β} {b : β} (h : (l >>= f).result = .ok b)
    (color : Bool) :
    ∃ a, l.result = .ok a ∧ (f a).result = .ok b ∧
      (l >>= f).render color = l.render color ++ (f a).render color := by
  obtain ⟨a, ha, hfa, hpieces⟩ := bind_eq_ok h
  refine ⟨a, ha, hfa, ?_⟩
  rw [render, hpieces, map_append, String.join_append, render, render]

theorem only_true (l : Listing Unit) : only true l = l := rfl

theorem only_false (l : Listing Unit) : only false l = pure () := rfl

theorem render_write (color : Bool) (text : String) : (write text).render color = text := by
  cases color <;> simp [write, put, render, Piece.render, Ink.paint]

theorem result_write_bind (text : String) (f : Unit → Listing β) :
    (write text >>= f).result = (f ()).result := rfl

theorem render_write_bind (color : Bool) (text : String) (f : Unit → Listing β) :
    (write text >>= f).render color = text ++ (f ()).render color := by
  have hpieces : (write text >>= f).pieces = (write text).pieces ++ (f ()).pieces := rfl
  rw [render, hpieces, map_append, String.join_append, ← render, ← render, render_write]

/-- The text of a listing with something in front and something behind, if it ends well. -/
theorem render_between {front l : Listing Unit} {rest : Unit → Listing β} {b : β}
    (h : (front >>= fun _ => l >>= rest).result = .ok b) (color : Bool) : l.result = .ok () ∧
      (front >>= fun _ => l >>= rest).render color = front.render color ++ l.render color ++
        (rest ()).render color := by
  obtain ⟨_, -, h, hfront⟩ := render_bind h color
  obtain ⟨_, hl, -, hrest⟩ := render_bind h color
  exact ⟨hl, by rw [hfront, hrest, String.append_assoc]⟩

end Listing

namespace X86

open Listing

variable {s : Scene} {i : Insn}

/-- A comparison as text, with a sign between its operands. A test is of one value, and zero stands
for the second. -/
def conditionText (s : Scene) (color : Bool) (sign : String) (i : Insn) : String :=
  "(" ++ (value s i 0).render color ++ " " ++ sign ++ " " ++
    (if i.opcode = "TEST" then "0" else (value s i 1).render color) ++ ")"

theorem condition_cmp (h : i.opcode = "CMP") (c : String) : condition s (some c) (some i) = (do
    write "("
    value s i 0
    write " "
    write (symbol c)
    write " "
    value s i 1
    write ")") := by
  have hassigns : assignmentOps.contains i.opcode = false := by rw [h]; decide
  have htests : decide (i.opcode = "TEST") = false := by rw [h]; decide
  simp only [condition, Arch.condSymbol, hassigns, htests, only_false, pure_bind,
    Bool.false_eq_true, if_false]
  simp only [h, ne_eq, not_true, decide_false, Bool.false_and, Bool.or_false, only_false, pure_bind]

theorem condition_test (h : i.opcode = "TEST") (c : String) : condition s (some c) (some i) = (do
    write "("
    value s i 0
    write " "
    write (symbol c)
    write " 0"
    write ")") := by
  have hassigns : assignmentOps.contains i.opcode = false := by rw [h]; decide
  have htests : decide (i.opcode = "TEST") = true := by rw [h]; decide
  simp only [condition, Arch.condSymbol, hassigns, htests, only_false, only_true, pure_bind,
    if_true, Bool.true_or]

/-- A condition with a comparison, as text. -/
theorem condition_render (hi : i.opcode = "CMP" ∨ i.opcode = "TEST")
    (h : (condition s (some c) (some i)).result = .ok ()) (color : Bool) :
    (condition s (some c) (some i)).render color = conditionText s color (symbol c) i := by
  -- Only the operands can fail to be written.
  rcases hi with hi | hi
  · rw [condition_cmp hi, result_write_bind] at h
    obtain ⟨_, -, h, hleft⟩ := render_bind h color
    rw [result_write_bind, result_write_bind, result_write_bind] at h
    obtain ⟨_, -, -, hright⟩ := render_bind h color
    have htests : i.opcode ≠ "TEST" := by rw [hi]; decide
    rw [condition_cmp hi, render_write_bind, hleft, render_write_bind, render_write_bind,
      render_write_bind, hright, render_write, conditionText, if_neg htests]
    simp only [String.append_assoc]
  · rw [condition_test hi, result_write_bind] at h
    obtain ⟨_, -, -, hleft⟩ := render_bind h color
    have hzero : " 0" = " " ++ "0" := rfl
    rw [condition_test hi, render_write_bind, hleft, render_write_bind, render_write_bind,
      render_write_bind, render_write, conditionText, if_pos hi, hzero]
    simp only [String.append_assoc]

end X86

namespace Scene

open Listing

/-- What stands in front of the condition of an `if`: the remarks on the comparison and the jump,
the delay slot, and the keyword. -/
def ifLead (s : Scene) (depth : Int) (jump : Insn) (slot fused : Option Insn) (keyword : String) :
    Listing Unit := do
  s.jumpRemarks (some jump) fused depth
  s.delaySlot slot depth
  indent depth
  ink .keyword keyword

section Shapes

variable (s : Scene) (depth : Int) (chained : Bool) (jump : Insn) (slot fused : Option Insn)

theorem ifGoto_eq (cond : Option String) (target : Int) :
    s.node depth chained (.ifGoto jump cond target slot fused) =
    (s.ifLead depth jump slot fused "if " >>= fun _ => s.condition cond fused >>= fun _ => do
      ink .keyword "  goto "
      s.labelOrAddress target 0 false
      newline) := by
  unfold node
  simp only [ifLead, bind_assoc]

/-- A branch in two whose first part is not empty shows the opposite of the condition of its
jump. -/
theorem ifElse_eq (expected place : Int) {next : List Node} (hnext : next ≠ [])
    (other : List Node) :
    ∃ rest, s.node depth chained (.ifElse jump expected place next other slot fused) =
      (s.ifLead depth jump slot fused (if chained then "else if " else "if ") >>= fun _ =>
        s.condition (s.arch.invertedCond jump) fused >>= rest) := by
  have hempty : next.isEmpty = false := by simpa using hnext
  unfold node
  simp only [ifLead, bind_assoc, hempty, Bool.false_eq_true, if_false]
  exact ⟨_, rfl⟩

/-- A branch in two whose first part is empty shows the condition of its jump, and the second part
under it. -/
theorem ifElse_swapped_eq (expected place : Int) (other : List Node) :
    ∃ rest, s.node depth chained (.ifElse jump expected place [] other slot fused) =
      (s.ifLead depth jump slot fused (if chained then "else if " else "if ") >>= fun _ =>
        s.condition (some (s.arch.condOf jump)) fused >>= rest) := by
  unfold node
  simp only [ifLead, bind_assoc, isEmpty_nil, if_true]
  exact ⟨_, rfl⟩

end Shapes

/-- If the listing ends well, then it has a comparison in brackets right behind the keyword, with
the sign between its operands. -/
def PrintsIf (s : Scene) (depth : Int) (jump : Insn) (slot : Option Insn) (i : Insn)
    (keyword sign : String) (l : Listing Unit) : Prop :=
  l.result = .ok () → ∀ color, ∃ rest, l.render color =
    (s.ifLead depth jump slot (some i) keyword).render color ++ X86.conditionText s color sign i ++
    rest

theorem printsIf_of_eq {s : Scene} (hs : s.arch = .x86) {depth : Int} {jump i : Insn}
    {slot : Option Insn} (hi : i.opcode = "CMP" ∨ i.opcode = "TEST") {keyword : String}
    {l : Listing Unit} {rest : Unit → Listing Unit}
    (h : l = s.ifLead depth jump slot (some i) keyword >>= fun _ =>
      s.condition (some c) (some i) >>= rest) :
    s.PrintsIf depth jump slot i keyword (X86.symbol c) l := by
  have hcondition : s.condition (some c) (some i) = X86.condition s (some c) (some i) := by
    rw [condition, hs]
  intro hok color
  rw [h, hcondition] at hok ⊢
  obtain ⟨hprinted, htext⟩ := render_between hok color
  exact ⟨_, by rw [htext, X86.condition_render hi hprinted]⟩

end Scene

namespace X86

variable {w : Nat}

/-- The value on the right of the sign. -/
def shownRight (i : Insn) (b : BitVec w) : BitVec w := if i.opcode = "TEST" then 0 else b

/-- The flags after a comparison of two values, or a test of the first one with itself. -/
def flagsAfter (i : Insn) (a b : BitVec w) : Flags :=
  if i.opcode = "TEST" then Flags.ofTest a a else Flags.ofCmp a b

/-- The jumps whose signs say what they test, behind a comparison or a test. -/
def faithfulJumps (i : Insn) : List String :=
  if i.opcode = "TEST" then "JS" :: orderJumps else orderJumps

theorem shown_says_iff {i : Insn} (hc : c ∈ opposites.map Prod.fst) (hw : w ∈ widths) :
    (∀ a b : BitVec w, holds (symbol c) a (shownRight i b) = takes (flagsAfter i a b) c) ↔
      c ∈ faithfulJumps i := by
  by_cases htests : i.opcode = "TEST"
  · -- A test of a value with itself is a comparison with zero.
    simp only [shownRight, flagsAfter, faithfulJumps, if_pos htests, Flags.ofTest_self,
      forall_const]
    exact sign_says_zero_iff hc hw
  · simp only [shownRight, flagsAfter, faithfulJumps, if_neg htests]
    exact sign_says_iff hc hw

theorem opposites_keys (h : opposites.lookup jump = some c) :
    jump ∈ opposites.map Prod.fst ∧ c ∈ opposites.map Prod.fst := by
  have hall : ∀ e ∈ opposites, e.1 ∈ opposites.map Prod.fst ∧ e.2 ∈ opposites.map Prod.fst := by
    decide
  obtain ⟨l, l', hmem, -⟩ := lookup_eq_some_iff.mp h
  exact hall (jump, c) (by rw [hmem]; simp)

/-- The printed conditions of all jumps that have an opposite, behind a comparison or a test of a
register with itself. An `if` that leaves for an address, or whose first part is empty, shows the
sign of the jump; any other `if` shows that of the opposite. The first sign holds of the operands
exactly if the jump is taken, for all of their values, if and only if it is among ten for a
comparison and among eleven for a test. The second one holds exactly if the jump is not taken if and
only if the opposite is among them. -/
theorem printed_condition_iff {s : Scene} (hs : s.arch = .x86) {jump i : Insn} {c : String}
    (hjump : s.arch.invertedCond jump = some c)
    (hi : i.opcode = "CMP" ∨ i.opcode = "TEST" ∧ i.sameRegister = true) (hw : w ∈ widths)
    (depth : Int) (chained : Bool) (slot : Option Insn) :
    (∀ target, s.PrintsIf depth jump slot i "if " (symbol jump.opcode)
      (s.node depth chained (.ifGoto jump (some (s.arch.condOf jump)) target slot (some i)))) ∧
    (∀ expected place other, s.PrintsIf depth jump slot i (if chained then "else if " else "if ")
      (symbol jump.opcode)
      (s.node depth chained (.ifElse jump expected place [] other slot (some i)))) ∧
    (∀ expected place next other, next ≠ [] →
      s.PrintsIf depth jump slot i (if chained then "else if " else "if ") (symbol c)
        (s.node depth chained (.ifElse jump expected place next other slot (some i)))) ∧
    ((∀ a b : BitVec w, holds (symbol jump.opcode) a (shownRight i b) =
      takes (flagsAfter i a b) jump.opcode) ↔ jump.opcode ∈ faithfulJumps i) ∧
    ((∀ a b : BitVec w, holds (symbol c) a (shownRight i b) =
      (takes (flagsAfter i a b) jump.opcode).map (!·)) ↔ c ∈ faithfulJumps i) := by
  have hi' : i.opcode = "CMP" ∨ i.opcode = "TEST" := hi.imp_right And.left
  have hcond : s.arch.condOf jump = jump.opcode := by rw [hs]; rfl
  have hopposite : opposites.lookup jump.opcode = some c := by rwa [hs] at hjump
  obtain ⟨hkey, hkey'⟩ := opposites_keys hopposite
  refine ⟨fun target => ?_, fun expected place other => ?_,
    fun expected place next other hnext => ?_, shown_says_iff hkey hw, ?_⟩
  · rw [hcond]
    exact Scene.printsIf_of_eq hs hi' (s.ifGoto_eq depth chained jump slot (some i) _ target)
  · obtain ⟨rest, heq⟩ := s.ifElse_swapped_eq depth chained jump slot (some i) expected place other
    rw [hcond] at heq
    exact Scene.printsIf_of_eq hs hi' heq
  · obtain ⟨rest, heq⟩ := s.ifElse_eq depth chained jump slot (some i) expected place hnext other
    rw [hjump] at heq
    exact Scene.printsIf_of_eq hs hi' heq
  · simp only [← takes_opposite hopposite]
    exact shown_says_iff hkey' hw

/-- A comparison of two registers, or a test. -/
def compareRegisters (opcode left right : String) : Insn :=
  { OneByte.run.insn 0 with
    opcode := opcode
    operands := [⟨.register left 0, 4, none⟩, ⟨.register right 0, 4, none⟩] }

/-- A conditional jump behind it. -/
def jumpOn (opcode : String) : Insn := { (OneByte.fork 4).insn 1 with opcode := opcode }

/-- Printing without comments. -/
def plainScene : Scene :=
  ⟨{ Options.standard with comments := false }, Marks.empty, ∅, OneByte.program []⟩

/-- Less, as it is printed behind a comparison. -/
theorem printed_condition_iff_less :
    let l := plainScene.node 1 false (.ifGoto (jumpOn "JL") (some "JL") 4 none
      (some (compareRegisters "CMP" "eax" "ebx")))
    l.result = .ok () ∧ l.render false = "    if (eax < ebx)  goto 0x4\n" ∧
    (∃ rest, l.render false =
      (plainScene.ifLead 1 (jumpOn "JL") none (some (compareRegisters "CMP" "eax" "ebx"))
      "if ").render false ++ "(eax < ebx)" ++ rest) ∧
    ∀ a b : BitVec 32, holds "<" a b = takes (Flags.ofCmp a b) "JL" := by
  intro l
  have hresult : l.result = .ok () := rfl
  have hopposite : plainScene.arch.invertedCond (jumpOn "JL") = some "JGE" := rfl
  obtain ⟨hgoto, -, -, hsays, -⟩ := printed_condition_iff (i := compareRegisters "CMP" "eax" "ebx")
    (w := 32) rfl hopposite (.inl rfl) (by decide) 1 false none
  exact ⟨hresult, by decide, hgoto 4 hresult false, hsays.mpr (by decide)⟩

/-- Behind a test of a register that is zero, `JNS` is taken, and the condition that is printed for
it does not hold. -/
theorem printed_not_sign_wrong :
    let i := compareRegisters "TEST" "eax" "eax"
    let l := plainScene.node 1 false (.ifGoto (jumpOn "JNS") (some "JNS") 4 none (some i))
    l.result = .ok () ∧ l.render false = "    if (eax > 0)  goto 0x4\n" ∧
    takes (flagsAfter i (0 : BitVec 32) 0) "JNS" = some true ∧ holds ">" (0 : BitVec 32)
      (shownRight i 0) = some false := by
  intro i l
  exact ⟨rfl, by decide, by decide, by decide⟩

end X86

end Decompiler
