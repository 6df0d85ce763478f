import Decompiler.Proofs.Decoding
/-!
# The code that is kept does not show

A program keeps the code that it has decoded, and decodes a whole run of instructions at a time.
Where a run begins, how far it goes and where it meets code that is kept already depends on what was
asked before; the answers do not. Every fetch in a sequence of fetches answers as if it were the
first one after the file was opened (`Program.fetches_as_first`). That needs sections which can be
told from the address: in a raw file, and in an ELF file whose sections do not overlap.
-/

namespace Decompiler

/-- A raw file, or an ELF file whose sections do not overlap, of which nothing has been asked
yet. -/
def Image.Opened : Image → Prop
  | .raw _ => True
  | .elf e => e.Disjoint ∧ e.seen = []
  | .pe _ => False

theorem Image.Opened.definite {img : Image} (h : img.Opened) : img.Definite := by
  cases img with
  | raw r => trivial
  | elf e =>
    refine ⟨h.1, ?_⟩
    rw [h.2]
    exact List.nil_subset _
  | pe p => exact h.elim

namespace Program

variable {p₀ p : Program}

/-- A program that has decoded nothing goes on from itself. -/
theorem Since.of_opened (himage : p.image.Opened) (hcode : p.code = ∅) : Since p p := by
  refine Since.refl himage.definite.steady fun addr i hi => ?_
  rw [hcode] at hi
  cases hi

/-- A sequence of fetches answers what the decoder gives, each as if it were the first. -/
theorem Since.fetches_eq (h₀ : p₀.image.Steady) (h : Since p₀ p) (calls : List (Int × Option Int)) :
    ∃ p', (calls.mapM fun c => fetch c.1 c.2) p =
      .ok (calls.map fun c => p₀.decodeWithin? c.1 c.2) p' ∧ Since p₀ p' := by
  induction calls generalizing p with
  | nil => exact ⟨p, rfl, h⟩
  | cons c rest ih =>
    obtain ⟨p₁, hfirst, h₁⟩ := h.fetch_eq h₀ c.1 c.2
    obtain ⟨p₂, hrest, h₂⟩ := ih h₁
    refine ⟨p₂, ?_, h₂⟩
    rw [List.mapM_cons, bind_of_ok hfirst, bind_of_ok hrest]
    rfl

/-- In a file of which nothing has been asked yet, every fetch of a sequence answers what it would
answer as the first one: the instruction of the decoder at the address, if that is in the section
asked for and the bytes up to the end of the section and the file hold it. -/
theorem fetches_as_first (himage : p.image.Opened) (hcode : p.code = ∅)
    (calls : List (Int × Option Int)) :
    (∃ p', (calls.mapM fun c => fetch c.1 c.2) p =
      .ok (calls.map fun c => (p.insnAt c.1 c.2).1) p') ∧
      ∀ addr within, (p.insnAt addr within).1 = p.decodeWithin? addr within := by
  have hsince := Since.of_opened himage hcode
  have hfirst : ∀ addr within, (p.insnAt addr within).1 = p.decodeWithin? addr within := by
    intro addr within
    obtain ⟨p', hlookup, -⟩ := insnAt_eq himage.definite.steady hsince addr within
    rw [hlookup]
  obtain ⟨p', hall, -⟩ := hsince.fetches_eq himage.definite.steady calls
  refine ⟨⟨p', ?_⟩, hfirst⟩
  simp only [hall, hfirst]

/-! ### Overlapping streams of code -/

/-- An instruction that runs on into the next one. -/
def running (addr : Int) (bytes : List UInt8) : Insn where
  addr := addr
  bytes := bytes
  opcode := "NOP"
  mnemonic := "nop"
  opText := ""
  operands := []
  jumpGroup := false
  callGroup := false
  retGroup := false
  repetition := none
  condition := ""
  setsFlags := false
  readsPc := false

/-- An ELF file with two sections. In the first one the instructions at `0x100` and at `0x101`
overlap, and the one at `0x103` is longer than the section. -/
def overlapping : Program where
  image := .elf {
    machine := "x86", wordBits := 32, bigEndian := false, entry := 0x100
    sections := [⟨".text", 0x100, 4, 4, 6, [], []⟩, ⟨".init", 0x200, 2, 8, 6, [], []⟩]
    file := [0x7f, 0x45, 0x4c, 0x46, 0x66, 0x66, 0x90, 0x66, 0x66, 0x90]
    seen := [] }
  target := ⟨.x86, .bits32, false⟩
  decoder := ⟨some .x86, [running 0x100 [0x66, 0x66], running 0x101 [0x66, 0x90],
    running 0x102 [0x90], running 0x103 [0x66, 0x66], running 0x200 [0x66, 0x90]]⟩
  code := ∅
  symbols := Symbols.empty

/-- The second stream ends at the instruction that does not fit. The first one, fetched later,
begins in front of it and goes on with its own instruction; the section asked for is heeded for code
that is kept as well. -/
theorem fetches_as_first_overlapping :
    overlapping.image.Opened ∧ overlapping.code = ∅ ∧
      (∃ p', ([(0x101, none), (0x100, none), (0x102, some 0x100), (0x102, some 0x200),
          (0x103, none), (0x200, none)].mapM fun c => fetch c.1 c.2) overlapping =
        .ok [some (running 0x101 [0x66, 0x90]), some (running 0x100 [0x66, 0x66]),
          some (running 0x102 [0x90]), none, none, some (running 0x200 [0x66, 0x90])] p') := by
  have hopened : overlapping.image.Opened := by
    refine ⟨List.pairwise_pair.mpr fun addr h => ?_, rfl⟩
    simp only [ElfSection.contains, Bool.and_eq_true, decide_eq_true_eq] at h
    simp only [ElfSection.stop] at h
    omega
  have hanswers : ([(0x101, none), (0x100, none), (0x102, some 0x100), (0x102, some 0x200),
      (0x103, none), (0x200, none)].map fun c => (overlapping.insnAt c.1 c.2).1) =
      [some (running 0x101 [0x66, 0x90]), some (running 0x100 [0x66, 0x66]),
        some (running 0x102 [0x90]), none, none, some (running 0x200 [0x66, 0x90])] := by
    decide +kernel
  refine ⟨hopened, rfl, ?_⟩
  rw [← hanswers]
  exact (fetches_as_first hopened rfl _).1

end Program

end Decompiler
