import Decompiler.Proofs.Columns
import Decompiler.Proofs.OneByteCode
/-!
# Immediates that can be written

An immediate that is no address is written as a character, in hexadecimal, or in decimal together
with the text that its four bytes spell. The characters are there for all signed and unsigned bytes
(`Text.codeText?_isSome_iff`), but a positive number has four bytes only if it is less than 2 ^ 32
(`Scene.decimal_of_lt`, `Scene.decimal_of_le`). On ARM and MIPS no immediate is larger. On x86 the
writing fails for just those that are (`Scene.immediate_written_iff`).
-/

namespace Decompiler

namespace Listing

variable {α β : Type}

theorem ask_ok_bind (a : α) (f : α → Listing β) : ask (.ok a) >>= f = f a := rfl

theorem result_map (f : α → β) (l : Listing α) : (f <$> l).result = l.result.map f := by
  obtain ⟨pieces, result⟩ := l
  cases result <;> rfl

/-- What is written under a condition before a listing does not change how it ends. -/
theorem result_only_write_bind (b : Bool) (text : String) (l : Listing α) :
    (only b (write text) >>= fun _ => l).result = l.result := by
  cases b <;> rfl

end Listing

namespace Text

/-- The codes that are shown are those of bytes, signed or not; a negative one may go down to
-256. -/
theorem codeText?_isSome_iff (n : Int) : (codeText? n).isSome ↔ -256 ≤ n ∧ n < 256 := by
  unfold codeText?
  by_cases hbyte : 0 ≤ n ∧ n < 256
  · rw [if_pos (by simpa using hbyte)]
    exact iff_of_true rfl (by omega)
  · rw [if_neg (by simpa using hbyte)]
    by_cases hsigned : -256 ≤ n ∧ n < 0
    · rw [if_pos (by simpa using hsigned)]
      exact iff_of_true rfl (by omega)
    · rw [if_neg (by simpa using hsigned)]
      exact iff_of_false Bool.false_ne_true (by omega)

end Text

namespace Scene

open Listing

variable {n : Int}

theorem wordBytes_of_lt (hpos : 0 ≤ n) (hlt : n < 2 ^ 32) : ∃ codes, wordBytes n = .ok codes :=
  ⟨_, if_pos (by simpa using And.intro hpos hlt)⟩

theorem wordBytes_of_le (hle : 2 ^ 32 ≤ n) : wordBytes n = .error (.wordRange n) :=
  if_neg (by simp only [Bool.and_eq_true, decide_eq_true_eq, not_and]; omega)

/-- A number below 2 ^ 32 can be written in decimal, negative ones included. -/
theorem decimal_of_lt (hlt : n < 2 ^ 32) : ∃ told, (decimal n).result = .ok told := by
  unfold decimal
  by_cases hpos : 0 < n
  · obtain ⟨codes, hcodes⟩ := wordBytes_of_lt hpos.le hlt
    simp only [if_pos hpos, hcodes]
    by_cases htext : codes.all Text.isPrintable = true
    · exact ⟨false, by simp only [ask_ok_bind, if_pos htext]; rfl⟩
    · exact ⟨true, by simp only [ask_ok_bind, if_neg htext]; rfl⟩
  · rw [if_neg hpos]
    exact ⟨true, rfl⟩

/-- Of the others the four bytes are asked for that they do not have. -/
theorem decimal_of_le (hle : 2 ^ 32 ≤ n) : (decimal n).result = .error (.wordRange n) := by
  unfold decimal
  simp only [if_pos (show 0 < n by omega), wordBytes_of_le hle]
  rfl

variable {s : Scene}

/-- A number that is no address, as a character. -/
theorem immediate_of_character (hplain : s.program.image.sectionOf? n = none)
    (hbyte : -256 ≤ n ∧ n < 256) (inHex : Bool) :
    (s.immediate n inHex true).result = .ok false := by
  obtain ⟨c, hc⟩ := Option.isSome_iff_exists.mp ((Text.codeText?_isSome_iff n).mpr hbyte)
  simp only [immediate, hplain, if_true, hc]
  rfl

theorem immediate_of_hex (hplain : s.program.image.sectionOf? n = none) :
    (s.immediate n true false).result = .ok false := by
  simp only [immediate, hplain]
  rfl

theorem immediate_of_decimal (hplain : s.program.image.sectionOf? n = none) :
    s.immediate n false false = decimal n := by
  simp only [immediate, hplain]
  rfl

end Scene

/-- The immediates that the decoder of a machine gives for an operand of a width: bytes and larger
numbers on x86, signed or not, and words on the others. -/
def Arch.Immediate (width n : Int) : Arch → Prop
  | .x86 =>
    width = 1 ∧ -128 ≤ n ∧ n ≤ 255 ∨ (width = 2 ∨ width = 4 ∨ width = 8) ∧ -2 ^ 63 ≤ n ∧ n < 2 ^ 64
  | .arm | .mips => -2 ^ 31 ≤ n ∧ n < 2 ^ 32

theorem Arch.Immediate.lt_word {arch : Arch} {width n : Int} (h : arch.Immediate width n)
    (harch : arch ≠ .x86) : n < 2 ^ 32 := by
  cases arch with
  | x86 => exact absurd rfl harch
  | arm | mips => exact h.2

/-- What x86 has of one byte is a byte, signed or not. -/
theorem Arch.Immediate.byte {arch : Arch} {width n : Int} (h : arch.Immediate width n)
    (harch : arch = .x86) (hwidth : width = 1) : -256 ≤ n ∧ n < 256 := by
  subst harch
  obtain ⟨-, hlow, hhigh⟩ | ⟨hwider, -⟩ := h
  · omega
  · omega

namespace Scene

open Listing

variable {s : Scene} {i : Insn} {k n : Int} {op : Operand}

/-- On every machine an immediate operand is written in one way; only x86 has characters. -/
theorem operand_of_immediate (hop : i.operand k = .ok op) (hvalue : op.value = .immediate n)
    (inHex deref : Bool) :
    (s.operand i k inHex deref).result =
      (s.immediate n inHex (s.arch = .x86 && op.size = 1)).result.map some := by
  unfold operand
  cases harch : s.arch with
  | x86 => simp [X86.operand, hop, hvalue, ask_ok_bind, result_map]
  | arm => simp [Arm.operand, hop, hvalue, ask_ok_bind, result_only_write_bind, result_map]
  | mips => simp [Mips.operand, hop, hvalue, ask_ok_bind, result_map]

/-- Whether an immediate is to be written in decimal, with the text of its four bytes, and does not
fit in them. -/
def TooWide (s : Scene) (op : Operand) (inHex : Bool) (n : Int) : Prop :=
  s.arch = .x86 ∧ op.size ≠ 1 ∧ inHex = false ∧ 2 ^ 32 ≤ n

variable {inHex : Bool}

theorem immediate_of_tooWide (hplain : s.program.image.sectionOf? n = none)
    (hwide : s.TooWide op inHex n) :
    (s.immediate n inHex (s.arch = .x86 && op.size = 1)).result = .error (.wordRange n) := by
  obtain ⟨harch, hsize, rfl, hle⟩ := hwide
  have hplainly : (decide (s.arch = .x86) && decide (op.size = 1)) = false := by simp [hsize]
  rw [hplainly, immediate_of_decimal hplain]
  exact decimal_of_le hle

theorem immediate_of_fits (hplain : s.program.image.sectionOf? n = none)
    (hgiven : s.arch.Immediate op.size n) (hfits : ¬ s.TooWide op inHex n) :
    ∃ told, (s.immediate n inHex (s.arch = .x86 && op.size = 1)).result = .ok told := by
  by_cases hbyte : s.arch = .x86 ∧ op.size = 1
  · rw [hbyte.1, hbyte.2]
    exact ⟨false, immediate_of_character hplain (hgiven.byte hbyte.1 hbyte.2) inHex⟩
  · have hplainly : (decide (s.arch = .x86) && decide (op.size = 1)) = false := by simpa using hbyte
    rw [hplainly]
    cases inHex with
    | true => exact ⟨false, immediate_of_hex hplain⟩
    | false =>
      rw [immediate_of_decimal hplain]
      refine decimal_of_lt (lt_of_not_ge fun hle => ?_)
      by_cases harch : s.arch = .x86
      · exact hfits ⟨harch, fun hsize => hbyte ⟨harch, hsize⟩, rfl, hle⟩
      · exact absurd (hgiven.lt_word harch) (not_lt.mpr hle)

/-- An immediate operand that is no address is written on every machine and in every style, unless
it is too wide. Then the writing fails. -/
theorem immediate_written_iff (hop : i.operand k = .ok op) (hvalue : op.value = .immediate n)
    (hgiven : s.arch.Immediate op.size n) (hplain : s.program.image.sectionOf? n = none)
    (inHex deref : Bool) :
    ((∃ told, (s.operand i k inHex deref).result = .ok (some told)) ↔ ¬ s.TooWide op inHex n) ∧
      (s.TooWide op inHex n → (s.operand i k inHex deref).result = .error (.wordRange n)) := by
  have hresult := operand_of_immediate (s := s) hop hvalue inHex deref
  have hfails (hwide : s.TooWide op inHex n) :
      (s.operand i k inHex deref).result = .error (.wordRange n) := by
    rw [hresult, immediate_of_tooWide hplain hwide]
    rfl
  refine ⟨⟨?_, fun hfits => ?_⟩, hfails⟩
  · rintro ⟨told, hok⟩ hwide
    rw [hfails hwide] at hok
    cases hok
  · obtain ⟨told, hok⟩ := immediate_of_fits hplain hgiven hfits
    exact ⟨told, by rw [hresult, hok]; rfl⟩

/-- A load of a number of eight bytes into a register. -/
def loadNumber (n : Int) : Insn :=
  { OneByte.insn .run 0 with
    opcode := "MOVABS", mnemonic := "movabs",
    operands := [⟨.register "rax" 35, 8, none⟩, ⟨.immediate n, 8, none⟩] }

/-- The scene of a program without code, in the standard style. -/
def bareScene : Scene := ⟨Options.standard, Marks.empty, ∅, OneByte.program []⟩

theorem immediate_written_iff_word :
    bareScene.arch.Immediate 8 (2 ^ 32 - 1) ∧
      bareScene.program.image.sectionOf? (2 ^ 32 - 1) = none ∧
      ∃ told, (bareScene.operand (loadNumber (2 ^ 32 - 1)) 1 false true).result =
        .ok (some told) := by
  have hgiven : bareScene.arch.Immediate 8 (2 ^ 32 - 1) := .inr (by decide)
  have hop : (loadNumber (2 ^ 32 - 1)).operand 1 = .ok ⟨.immediate (2 ^ 32 - 1), 8, none⟩ := rfl
  refine ⟨hgiven, by decide, (immediate_written_iff hop rfl hgiven (by decide) false true).1.mpr ?_⟩
  rintro ⟨-, -, -, hle⟩
  exact absurd hle (by decide)

/-- The next number, which the decoder also gives, is not written. -/
theorem wide_immediate_fails :
    bareScene.arch.Immediate 8 (2 ^ 32) ∧ bareScene.program.image.sectionOf? (2 ^ 32) = none ∧
      (bareScene.operand (loadNumber (2 ^ 32)) 1 false true).result =
        .error (.wordRange (2 ^ 32)) :=
  ⟨.inr (by decide), by decide, rfl⟩

end Scene

end Decompiler
