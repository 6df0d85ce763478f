import Decompiler.Program
import Decompiler.Proofs.Outcome
/-!
# Look-ups in an image

An image remembers the sections it was asked about and tries them first. What it answers is the same
as before if the section of an address is clear from the address: in a raw file, in an ELF file
whose sections do not overlap (`Image.Definite`), and in a PE file in which that holds of the parts
that are in the file (`Image.Steady`).

A read from further on gives at least the rest of what a read gave (`Image.room_advance`), so that
code which is decoded in one go is the code that would be decoded piece by piece.

The symbols of an ELF file are put in one by one, so they have every property that a new symbol does
not spoil (`Elf.symbols_of_define`).
-/

namespace Decompiler

open List

variable {s : ElfSection} {syms : Symbols}

/-! ## Sections that do not overlap -/

/-- No address lies in two sections of the table. -/
def Elf.Disjoint (e : Elf) : Prop :=
  e.sections.Pairwise fun s t => ∀ addr, ¬ (s.contains addr = true ∧ t.contains addr = true)

/-- The image tells the section of an address from the address alone: a raw file, or an ELF file
whose sections do not overlap and which remembers none but its own. -/
def Image.Definite : Image → Prop
  | .raw _ => True
  | .elf e => e.Disjoint ∧ e.seen ⊆ e.sections
  | .pe _ => False

/-- The images of one file; they may remember different sections. -/
def Image.SameFile : Image → Image → Prop
  | .raw r, .raw r' => r' = r
  | .elf e, .elf e' => ∃ seen, e' = { e with seen }
  | _, _ => False

theorem find?_eq_of_pairwise {α : Type} {q : α → Bool} {l : List α} {a : α}
    (hl : l.Pairwise fun x y => ¬ (q x = true ∧ q y = true)) (ha : a ∈ l) (hq : q a = true) :
    l.find? q = some a := by
  induction l with
  | nil => cases ha
  | cons x rest ih =>
    rw [pairwise_cons] at hl
    rcases mem_cons.mp ha with rfl | ha
    · exact List.find?_cons_of_pos hq
    · have hx : ¬ q x = true := fun h => hl.1 a ha ⟨h, hq⟩
      rw [List.find?_cons_of_neg hx]
      exact ih hl.2 ha

variable {e : Elf} {addr : Int} {p : Pe} {n : Nat}

theorem Elf.find?_sections (h : e.Disjoint) (hs : s ∈ e.sections) (ha : s.contains addr = true) :
    e.sections.find? (·.contains addr) = some s :=
  find?_eq_of_pairwise (h.imp fun hd => hd addr) hs ha

/-- The section remembered for an address is the one that the table gives. -/
theorem Elf.sectionAt_eq (h : e.Disjoint) (hseen : e.seen ⊆ e.sections) (addr : Int) :
    ∃ seen, seen ⊆ e.sections ∧
      e.sectionAt addr = (e.sections.find? (·.contains addr), { e with seen }) := by
  unfold Elf.sectionAt
  split
  · rename_i s hs
    have hmem : s ∈ e.sections := hseen (mem_of_find?_eq_some hs)
    have hin : s.contains addr = true := by simpa using List.find?_some hs
    refine ⟨e.seen, hseen, ?_⟩
    rw [Elf.find?_sections h hmem hin]
  · split
    · rename_i s hs
      exact ⟨e.seen ++ [s], append_subset.mpr ⟨hseen, by simpa using mem_of_find?_eq_some hs⟩,
        by rw [hs]⟩
    · rename_i hs
      exact ⟨e.seen, hseen, by rw [hs]⟩

/-- A look-up changes nothing but the sections that are remembered. -/
theorem Elf.sectionAt_seen (e : Elf) (addr : Int) :
    ∃ seen, (e.sectionAt addr).2 = { e with seen } := by
  unfold Elf.sectionAt
  split
  · exact ⟨e.seen, rfl⟩
  · split
    · exact ⟨_, rfl⟩
    · exact ⟨e.seen, rfl⟩

/-- What is asked of the library that reads a PE file: the part of a section that is in the file
belongs to that section alone (`own`), a section begins at its address (`begins`), and it lies where
the file can hold it (`placed`). -/
structure Pe.Regular (p : Pe) : Prop where
  own : ∀ s ∈ p.sections, ∀ rva, s.holds rva = true → Pe.sectionByRva? rva p.sections = some s
  begins : ∀ s ∈ p.sections, s.first = s.addr
  placed : ∀ s ∈ p.sections, 0 ≤ s.offset ∧ 0 ≤ s.size ∧ 0 ≤ s.fileStop

theorem Pe.mem_of_sectionByRva? {rva : Int} {s : PeSection} {sections : List PeSection}
    (h : Pe.sectionByRva? rva sections = some s) : s ∈ sections ∧ s.first ≤ rva := by
  have hin := List.find?_some h
  simp only [Bool.and_eq_true, decide_eq_true_eq] at hin
  exact ⟨mem_of_find?_eq_some h, hin.1⟩

theorem Pe.sectionAt_eq (h : p.Regular) (hseen : p.seen ⊆ p.sections) (addr : Int) :
    ∃ seen, seen ⊆ p.sections ∧
      p.sectionAt addr = (Pe.sectionByRva? (addr - p.base) p.sections, { p with seen }) := by
  unfold Pe.sectionAt
  split
  · rename_i s hs
    have hmem : s ∈ p.sections := hseen (mem_of_find?_eq_some hs)
    have hin : s.holds (addr - p.base) = true := by simpa using List.find?_some hs
    exact ⟨p.seen, hseen, by rw [h.own s hmem _ hin]⟩
  · split
    · rename_i s hs
      exact ⟨p.seen ++ [s],
        append_subset.mpr ⟨hseen, by simpa using (Pe.mem_of_sectionByRva? hs).1⟩, by rw [hs]⟩
    · rename_i hs
      exact ⟨p.seen, hseen, by rw [hs]⟩

/-- The image tells the section of an address from the address alone. -/
def Image.Steady : Image → Prop
  | .raw r => (Image.raw r).Definite
  | .elf e => (Image.elf e).Definite
  | .pe p => p.Regular ∧ p.seen ⊆ p.sections

/-- The image of the same file, which may remember other sections. -/
def Image.Recalls : Image → Image → Prop
  | .pe p, .pe p' => ∃ seen, seen ⊆ p.sections ∧ p' = { p with seen }
  | img, img' => img'.Definite ∧ img.SameFile img'

namespace Image

variable {img img' : Image}

theorem Definite.steady (h : img.Definite) : img.Steady := by
  cases img with
  | raw | elf => exact h
  | pe => exact h.elim

theorem Recalls.refl (h : img.Steady) : img.Recalls img := by
  cases img with
  | raw r => exact ⟨h, rfl⟩
  | elf e => exact ⟨h, e.seen, rfl⟩
  | pe p => exact ⟨p.seen, h.2, rfl⟩

/-- Two images of one file. -/
theorem SameFile.cases (h : img.SameFile img') : (∃ r, img = .raw r ∧ img' = .raw r) ∨
    ∃ (e : Elf) (seen : List ElfSection), img = .elf e ∧ img' = .elf { e with seen } := by
  cases img with
  | raw r =>
    cases img' with
    | raw r' => exact .inl ⟨r, rfl, congrArg Image.raw h⟩
    | elf | pe => exact h.elim
  | elf e =>
    cases img' with
    | elf e' =>
      obtain ⟨seen, rfl⟩ := h
      exact .inr ⟨e, seen, rfl, rfl⟩
    | raw | pe => exact h.elim
  | pe => exact h.elim

theorem Recalls.cases (h : img.Recalls img') : (∃ r, img = .raw r ∧ img' = .raw r) ∨
    (∃ (e : Elf) (seen : List ElfSection), img = .elf e ∧ img' = .elf { e with seen } ∧
      seen ⊆ e.sections) ∨
    ∃ (p : Pe) (seen : List PeSection), img = .pe p ∧ img' = .pe { p with seen } ∧
      seen ⊆ p.sections := by
  have hsame : img'.Definite ∧ img.SameFile img' → (∃ r, img = .raw r ∧ img' = .raw r) ∨
      ∃ (e : Elf) (seen : List ElfSection), img = .elf e ∧ img' = .elf { e with seen } ∧
      seen ⊆ e.sections := by
    rintro ⟨hdefinite, hsame⟩
    obtain hraw | ⟨e, seen, rfl, rfl⟩ := hsame.cases
    · exact .inl hraw
    · exact .inr ⟨e, seen, rfl, rfl, hdefinite.2⟩
  cases img with
  | raw | elf => exact or_assoc.mp (.inl (hsame h))
  | pe p =>
    cases img' with
    | pe p' =>
      obtain ⟨seen, hseen, rfl⟩ := h
      exact .inr (.inr ⟨p, seen, rfl, rfl, hseen⟩)
    | raw | elf => exact h.2.elim

/-- A look-up gives the section that the file alone tells, and remembers no section but of that
file. -/
theorem Recalls.span (h : img.Steady) (hr : img.Recalls img') (addr : Int) :
    (img'.span addr).1 = (img.span addr).1 ∧ img.Recalls (img'.span addr).2 := by
  rcases hr.cases with ⟨r, rfl, rfl⟩ | ⟨e, seen, rfl, rfl, hseen⟩ | ⟨p, seen, rfl, rfl, hseen⟩
  · exact ⟨rfl, trivial, rfl⟩
  · obtain ⟨s₁, -, h₁⟩ := Elf.sectionAt_eq h.1 h.2 addr
    obtain ⟨s₂, hs₂, h₂⟩ := Elf.sectionAt_eq (e := { e with seen }) h.1 hseen addr
    simp only [Image.span, h₁, h₂]
    exact ⟨trivial, ⟨h.1, hs₂⟩, s₂, rfl⟩
  · obtain ⟨s₁, -, h₁⟩ := Pe.sectionAt_eq h.1 h.2 addr
    obtain ⟨s₂, hs₂, h₂⟩ := Pe.sectionAt_eq (p := { p with seen }) { h.1 with } hseen addr
    simp only [Image.span, h₁, h₂]
    exact ⟨trivial, s₂, hs₂, rfl⟩

/-- Checking an address looks up its section. -/
theorem checkAddr_image (img : Image) (addr : Int) :
    (img.checkAddr addr).2 = (img.span addr).2 := by
  cases img with
  | raw | elf | pe => rfl

/-- A read gives the bytes that the file alone gives, and remembers no section but of that file. -/
theorem Recalls.read (h : img.Steady) (hr : img.Recalls img') (addr size : Int) :
    (img'.read addr size).1 = (img.read addr size).1 ∧ img.Recalls (img'.read addr size).2 := by
  rcases hr.cases with ⟨r, rfl, rfl⟩ | ⟨e, seen, rfl, rfl, hseen⟩ | ⟨p, seen, rfl, rfl, hseen⟩
  · exact ⟨rfl, trivial, rfl⟩
  · obtain ⟨s₁, -, h₁⟩ := Elf.sectionAt_eq h.1 h.2 addr
    obtain ⟨s₂, hs₂, h₂⟩ := Elf.sectionAt_eq (e := { e with seen }) h.1 hseen addr
    simp only [Image.read, Elf.read, h₁, h₂]
    cases e.sections.find? (·.contains addr) <;> exact ⟨rfl, ⟨h.1, hs₂⟩, s₂, rfl⟩
  · obtain ⟨s₁, -, h₁⟩ := Pe.sectionAt_eq h.1 h.2 addr
    obtain ⟨s₂, hs₂, h₂⟩ := Pe.sectionAt_eq (p := { p with seen }) { h.1 with } hseen addr
    simp only [Image.read, Pe.read, h₁, h₂]
    cases Pe.sectionByRva? (addr - p.base) p.sections <;> exact ⟨rfl, s₂, hs₂, rfl⟩

/-! ## Room for instructions -/

/-- The number of bytes that one read gives from an address on. -/
def room (img : Image) (addr : Int) : Int := (img.read addr Program.batch).1.length

theorem room_nonneg (img : Image) (addr : Int) : 0 ≤ img.room addr := Int.natCast_nonneg _

end Image

/-- Where a read that begins in the file stops, as it is counted in a slice. -/
def Raw.readEnd (r : Raw) (addr : Int) : Int :=
  addr - r.base + min (Program.batch : Int) (r.base + r.file.length - (addr - r.base))

theorem Raw.room_of_contains (r : Raw) (hc : r.contains addr = true) :
    (Image.raw r).room addr =
      (min (sliceBound r.file.length (r.readEnd addr)) r.file.length - (addr - r.base).toNat :
        Nat) := by
  have hstart : sliceBound r.file.length (addr - r.base) = (addr - r.base).toNat := by
    simp only [Raw.contains, Bool.and_eq_true, decide_eq_true_eq] at hc
    rw [sliceBound, if_pos (by omega)]
    omega
  rw [Image.room, Image.read, Raw.read, if_pos hc, slice, hstart, length_take, length_drop,
    Raw.readEnd]
  omega

/-- A read from further on stops no earlier. -/
theorem Raw.sliceBound_readEnd_mono (r : Raw) (hc : r.contains addr = true) (n : Nat) :
    sliceBound r.file.length (r.readEnd addr) ≤
      sliceBound r.file.length (r.readEnd (addr + n)) := by
  -- An end in front of the file, which would be counted from the end of it, is the same for both
  -- reads.
  have hends : r.readEnd addr ≤ r.readEnd (addr + n) ∧
      (r.readEnd addr < 0 → r.readEnd (addr + n) = r.readEnd addr) := by
    simp only [Raw.contains, Bool.and_eq_true, decide_eq_true_eq] at hc
    simp only [Raw.readEnd, Program.batch]
    omega
  generalize r.readEnd addr = a at hends ⊢
  generalize r.readEnd (addr + n) = b at hends ⊢
  unfold sliceBound
  split_ifs <;> omega

theorem Raw.room_advance (r : Raw) (hn : n < (Image.raw r).room addr) :
    (Image.raw r).room addr - n ≤ (Image.raw r).room (addr + n) := by
  by_cases hc : r.contains addr = true
  · have hmono := r.sliceBound_readEnd_mono hc n
    rw [r.room_of_contains hc] at hn ⊢
    have hc' : r.contains (addr + n) = true := by
      simp only [Raw.contains, Bool.and_eq_true, decide_eq_true_eq] at hc ⊢
      omega
    rw [r.room_of_contains hc']
    simp only [Raw.contains, Bool.and_eq_true, decide_eq_true_eq] at hc
    omega
  · simp [Image.room, Image.read, Raw.read, hc] at hn
    omega

theorem Elf.room_of_section (h : (Image.elf e).Definite) (hs : s ∈ e.sections)
    (ha : s.contains addr = true) :
    (Image.elf e).room addr =
      min (min 1024 (s.stop - addr)) (e.file.length - (s.offset + (addr - s.addr)).toNat :
        Nat) := by
  obtain ⟨seen, -, heq⟩ := Elf.sectionAt_eq h.1 h.2 addr
  rw [Elf.find?_sections h.1 hs ha] at heq
  have hpos : ¬ min (Program.batch : Int) (s.stop - addr) < 0 := by
    simp only [ElfSection.contains, Bool.and_eq_true, decide_eq_true_eq] at ha
    simp only [Program.batch]
    omega
  simp only [Image.room, Image.read, Elf.read, heq, hpos, if_false, length_take, length_drop]
  simp only [Program.batch] at hpos ⊢
  omega

/-- The section that holds an address holds all that one read gives from there, and a read from
further on gives the rest at least. -/
theorem Elf.room_advance (h : (Image.elf e).Definite) (hn : n < (Image.elf e).room addr) :
    ((Image.elf e).span (addr + n)).1.isSome = true ∧
      (Image.elf e).room addr - n ≤ (Image.elf e).room (addr + n) := by
  obtain ⟨s₁, -, h₁⟩ := Elf.sectionAt_eq h.1 h.2 addr
  cases hs : e.sections.find? (·.contains addr) with
  | none =>
    simp only [Image.room, Image.read, Elf.read, h₁, hs, length_nil, Nat.cast_zero] at hn
    omega
  | some s =>
    have hmem : s ∈ e.sections := mem_of_find?_eq_some hs
    have hin : s.contains addr = true := by simpa using List.find?_some hs
    rw [Elf.room_of_section h hmem hin] at hn ⊢
    have hin' : s.contains (addr + n) = true := by
      simp only [ElfSection.contains, Bool.and_eq_true, decide_eq_true_eq] at hin ⊢
      omega
    rw [Elf.room_of_section h hmem hin']
    obtain ⟨s₂, -, h₂⟩ := Elf.sectionAt_eq h.1 h.2 (addr + n)
    rw [Elf.find?_sections h.1 hmem hin'] at h₂
    refine ⟨by simp [Image.span, h₂], ?_⟩
    omega

/-- What one read gives of a section that is found ends with the section or the file. -/
theorem Pe.room_of_section (h : (Image.pe p).Steady) {s : PeSection}
    (hs : Pe.sectionByRva? (addr - p.base) p.sections = some s) :
    (Image.pe p).room addr =
      (min (min (addr - p.base - s.addr + s.offset + 1024)
        (min (s.offset + s.size) s.fileStop)).toNat p.file.length -
        (addr - p.base - s.addr + s.offset).toNat : Nat) := by
  obtain ⟨seen, -, heq⟩ := Pe.sectionAt_eq h.1 h.2 addr
  rw [hs] at heq
  obtain ⟨hmem, hle⟩ := Pe.mem_of_sectionByRva? hs
  obtain ⟨hoffset, hsize, hfile⟩ := h.1.placed s hmem
  have hbegins := h.1.begins s hmem
  rw [hbegins] at hle
  have hstart : 0 ≤ addr - p.base - s.addr + s.offset := by omega
  have hstop : min (addr - p.base - s.addr + s.offset + min 1024 (p.base + s.addr + s.size - addr))
      s.fileStop =
      min (addr - p.base - s.addr + s.offset + 1024) (min (s.offset + s.size) s.fileStop) := by
      omega
  have hpos : 0 ≤ min (addr - p.base - s.addr + s.offset + 1024)
      (min (s.offset + s.size) s.fileStop) := by omega
  simp only [Image.room, Image.read, Pe.read, heq, Pe.data, Program.batch, Nat.cast_ofNat, hbegins,
    hstop, slice, sliceBound, if_pos hstart, if_pos hpos, length_take, length_drop]
  omega

theorem Pe.room_advance (h : (Image.pe p).Steady) (hn : n < (Image.pe p).room addr) :
    ((Image.pe p).span (addr + n)).1.isSome = true ∧
      (Image.pe p).room addr - n ≤ (Image.pe p).room (addr + n) := by
  obtain ⟨s₁, -, h₁⟩ := Pe.sectionAt_eq h.1 h.2 addr
  obtain ⟨s₂, -, h₂⟩ := Pe.sectionAt_eq h.1 h.2 (addr + n)
  cases hs : Pe.sectionByRva? (addr - p.base) p.sections with
  | none =>
    simp only [Image.room, Image.read, Pe.read, h₁, hs, length_nil, Nat.cast_zero] at hn
    omega
  | some s =>
    obtain ⟨hmem, hle⟩ := Pe.mem_of_sectionByRva? hs
    rw [h.1.begins s hmem] at hle
    obtain ⟨hoffset, -, -⟩ := h.1.placed s hmem
    rw [Pe.room_of_section h hs] at hn ⊢
    -- What is read lies in the file, and the part of the section that is in the file is found again
    -- from further on.
    have hs' : Pe.sectionByRva? (addr + n - p.base) p.sections = some s := by
      refine h.1.own s hmem _ ?_
      simp only [PeSection.holds, Bool.and_eq_true, decide_eq_true_eq]
      omega
    rw [Pe.room_of_section h hs']
    refine ⟨by simp [Image.span, h₂, hs'], ?_⟩
    omega

theorem Image.room_advance {img : Image} (h : img.Steady) (hn : n < img.room addr) :
    (img.span (addr + n)).1.isSome = true ∧ img.room addr - n ≤ img.room (addr + n) := by
  cases img with
  | raw r => exact ⟨rfl, r.room_advance hn⟩
  | elf e => exact Elf.room_advance h hn
  | pe p => exact Pe.room_advance h hn

/-! ## Symbols -/

namespace Elf

variable {P : Symbols → Prop} (hdefine : ∀ {syms : Symbols} (name : String) (addr : Int), P syms →
  P (syms.define (some name) addr))

include hdefine

theorem addStatic_of_define (e : Elf) (h : P syms) : P (e.addStatic syms) := by
  unfold addStatic
  split
  · exact h
  · refine foldlRecOn _ _ h fun acc hacc sym _ => ?_
    split
    · exact hdefine _ _ hacc
    · exact hacc

theorem nameStubs_of_define {names : List String} {stop step : Int} :
    ∀ (relocations : List Int) {addr : Int}
    {syms syms' : Symbols}, P syms → nameStubs names stop step addr relocations syms = .ok syms' →
      P syms' := by
  intro relocations
  induction relocations with
  | nil =>
    intro addr syms syms' hsyms h
    rw [nameStubs] at h
    split at h
    · cases h
    · cases h
      exact hsyms
  | cons number rest ih =>
    intro addr syms syms' hsyms h
    rw [nameStubs] at h
    split at h
    · cases hname : position? names number with
      | none =>
        rw [hname] at h
        cases h
      | some name =>
        rw [hname] at h
        exact ih (hdefine _ _ hsyms) h
    · cases h
      exact hsyms

theorem symbols_of_define {e : Elf} (hempty : P Symbols.empty) (h : e.symbols = .ok syms) :
    P syms := by
  have hstatic := e.addStatic_of_define hdefine hempty
  simp only [symbols, addStubs] at h
  split at h
  · split at h
    · cases h
      exact hstatic
    · split at h
      · cases h
      · exact nameStubs_of_define hdefine _ hstatic h
  · cases h
    exact hstatic

end Elf

end Decompiler
