import Decompiler.Proofs.Acts
import Decompiler.Proofs.Lookups
import Decompiler.Session.Data
/-!
# The bytes of a section

A dump of data reads its section block by block. `Image.Rest` says which bytes an image has from an
address on to the end of the section there. Once the section has been looked up, all reads give what
is there and change nothing (`Image.Holds`), so that dumps can be studied on the bytes alone. The
dumps of words and of texts both write the name of the section and then their rows (`Act.dump_eq`).
-/

namespace Decompiler

open List

variable {addr : Int} {img img' : Image} {bytes : List UInt8}

/-! ## Files -/

theorem Elf.contains_of_sectionAt {e : Elf} {s : ElfSection} (h : (e.sectionAt addr).1 = some s) :
    s.contains addr = true := by
  unfold Elf.sectionAt at h
  cases hseen : e.seen.find? (·.contains addr) with
  | some t =>
    rw [hseen] at h
    obtain rfl := Option.some.inj h
    simpa using List.find?_some hseen
  | none =>
    rw [hseen] at h
    cases hfirst : e.sections.find? (·.contains addr) with
    | none =>
      rw [hfirst] at h
      cases h
    | some t =>
      rw [hfirst] at h
      obtain rfl := Option.some.inj h
      simpa using List.find?_some hfirst

/-- The section at an address has all its bytes in the file, and none of the sections that are
remembered besides it holds an address of it from there on. -/
structure Elf.Found (e : Elf) (addr : Int) (s : ElfSection) : Prop where
  found : (e.sectionAt addr).1 = some s
  offset : 0 ≤ s.offset
  inFile : s.offset + s.size ≤ e.file.length
  sole : ∀ t ∈ e.seen, t ≠ s → ∀ x, addr ≤ x → x < s.stop → ¬ t.contains x = true

namespace Image

/-- The bytes of an image from an address on, to the end of the section there: those of a raw file
at an address that is not negative, or those of a section of an ELF file. -/
def Rest (addr : Int) (bytes : List UInt8) : Image → Prop
  | .raw r => 0 ≤ r.base ∧ r.contains addr = true ∧ bytes = r.file.drop (addr - r.base).toNat
  | .elf e => ∃ s, e.Found addr s ∧ bytes = (e.content s).drop (addr - s.addr).toNat
  | .pe _ => False

theorem Rest.isPe (h : img.Rest addr bytes) : img.isPe = false := by
  cases img with
  | raw | elf => rfl
  | pe => exact h.elim

/-- Reads that begin at one of the bytes from an address on give the bytes there, and change
nothing. -/
def Holds (img : Image) (addr : Int) (bytes : List UInt8) : Prop :=
  ∀ k < bytes.length, ∀ size : Nat, img.read (addr + k) size = ((bytes.drop k).take size, img)

/-- The rest of the bytes is held from further on. -/
theorem Holds.drop (h : img.Holds addr bytes) (n : Nat) : img.Holds (addr + n) (bytes.drop n) := by
  intro k hk size
  rw [length_drop] at hk
  have hread := h (n + k) (by omega) size
  rw [drop_drop, ← hread]
  push_cast
  rw [add_assoc]

end Image

theorem Raw.holds {r : Raw} (hbase : 0 ≤ r.base) (hin : r.contains addr = true) :
    (Image.raw r).Holds addr (r.file.drop (addr - r.base).toNat) := by
  intro k hk size
  simp only [Raw.contains, Bool.and_eq_true, decide_eq_true_eq] at hin
  rw [length_drop] at hk
  have hin' : r.contains (addr + k) = true := by
    simp only [Raw.contains, Bool.and_eq_true, decide_eq_true_eq]
    omega
  have hstart : sliceBound r.file.length (addr + k - r.base) = (addr - r.base).toNat + k := by
    rw [sliceBound, if_pos (by omega)]
    omega
  -- What may be read at most is counted from the base twice, which cuts nothing off if the base is
  -- not negative.
  have hstop : sliceBound r.file.length
      (addr + k - r.base + min (size : Int) (r.base + r.file.length - (addr + k - r.base))) -
        ((addr - r.base).toNat + k) = min size (r.file.length - ((addr - r.base).toNat + k)) := by
    rw [sliceBound, if_pos (by omega)]
    omega
  rw [Image.read, Raw.read, if_pos hin', slice, hstart, hstop, drop_drop, ← length_drop,
    ← take_eq_take_min]

namespace Elf

variable {e : Elf} {addr : Int} {s : ElfSection}

/-- The length of what is left of a section. -/
theorem Found.length_content (h : e.Found addr s) :
    ((e.content s).drop (addr - s.addr).toNat).length = (s.stop - addr).toNat := by
  have hin := contains_of_sectionAt h.found
  have hoffset := h.offset
  have hfile := h.inFile
  simp only [ElfSection.contains, ElfSection.stop, Bool.and_eq_true, decide_eq_true_eq] at hin ⊢
  rw [content, length_drop, length_take, length_drop]
  omega

/-- After it has been looked up, the section is remembered, and found at all its addresses from
there on. -/
theorem Found.sectionAt (h : e.Found addr s) {x : Int} (hle : addr ≤ x) (hlt : x < s.stop) :
    (e.sectionAt addr).2.sectionAt x = (some s, (e.sectionAt addr).2) := by
  have hin := contains_of_sectionAt h.found
  have hin' : s.contains x = true := by
    simp only [ElfSection.contains, Bool.and_eq_true, decide_eq_true_eq] at hin ⊢
    omega
  -- Whatever is remembered and holds the address is the section.
  have hfind : ∀ seen : List ElfSection, s ∈ seen → (∀ t ∈ seen, t ≠ s → ¬ t.contains x = true) →
      seen.find? (·.contains x) = some s := by
    intro seen hmem hsole
    cases hfound : seen.find? (·.contains x) with
    | none => exact absurd hin' (by simpa using List.find?_eq_none.mp hfound s hmem)
    | some t =>
      have ht : t.contains x = true := by simpa using List.find?_some hfound
      by_contra hne
      exact hsole t (mem_of_find?_eq_some hfound) (fun heq => hne (congrArg some heq)) ht
  have hsole : ∀ t ∈ e.seen, t ≠ s → ¬ t.contains x = true :=
    fun t ht hne => h.sole t ht hne x hle hlt
  have hfound := h.found
  unfold Elf.sectionAt at hfound ⊢
  cases hseen : e.seen.find? (·.contains addr) with
  | some t =>
    rw [hseen] at hfound
    obtain rfl := Option.some.inj hfound
    simp only [hfind e.seen (mem_of_find?_eq_some hseen) hsole]
  | none =>
    rw [hseen] at hfound
    cases hfirst : e.sections.find? (·.contains addr) with
    | none =>
      rw [hfirst] at hfound
      cases hfound
    | some t =>
      rw [hfirst] at hfound
      obtain rfl := Option.some.inj hfound
      have hremembered : (e.seen ++ [t]).find? (·.contains x) = some t := by
        refine hfind _ (by simp) fun u hu hne => ?_
        rcases mem_append.mp hu with hu | hu
        · exact hsole u hu hne
        · exact absurd (mem_singleton.mp hu) hne
      simp only [hremembered]

theorem Found.holds (h : e.Found addr s) :
    (Image.elf (e.sectionAt addr).2).Holds addr ((e.content s).drop (addr - s.addr).toNat) := by
  intro k hk size
  have hin := contains_of_sectionAt h.found
  have hoffset := h.offset
  rw [h.length_content] at hk
  have hlookup := h.sectionAt (x := addr + k) (by omega) (by omega)
  obtain ⟨seen, hseen⟩ := e.sectionAt_seen addr
  have hpos : ¬ min (size : Int) (s.stop - (addr + k)) < 0 := by omega
  have hfile : (e.sectionAt addr).2.file = e.file := by rw [hseen]
  simp only [ElfSection.contains, ElfSection.stop, Bool.and_eq_true, decide_eq_true_eq]
    at hin hk hpos ⊢
  -- Both sides are a piece of the file: it begins at the same place and is equally long.
  have hplace : (s.offset + (addr + k - s.addr)).toNat = k +
      ((addr - s.addr).toNat + s.offset.toNat) := by omega
  have hsize : (min (size : Int) (s.addr + s.size - (addr + k))).toNat =
      min size (s.size.toNat - (addr - s.addr).toNat - k) := by omega
  simp only [Image.read, Elf.read, hlookup, hfile, ElfSection.stop, if_neg hpos, hplace, hsize,
    content]
  rw [drop_take, drop_take, drop_drop, drop_drop, take_take]
  congr 3
  omega

end Elf

namespace Image

/-- The look-up of the section that a dump is of: its last address is that of the last byte, and it
is held from then on. -/
theorem Rest.span (h : img.Rest addr bytes) :
    ∃ span img', img.span addr = (some span, img') ∧ span.last + 1 = addr + bytes.length ∧
      bytes ≠ [] ∧ img'.Holds addr bytes ∧ img.SameFile img' := by
  cases img with
  | raw r =>
    obtain ⟨hbase, hin, rfl⟩ := h
    have hholds := Raw.holds hbase hin
    simp only [Raw.contains, Bool.and_eq_true, decide_eq_true_eq] at hin
    refine ⟨r.span, .raw r, rfl, ?_, ?_, hholds, rfl⟩
    · rw [length_drop, Raw.span]
      dsimp only
      omega
    · rw [ne_eq, drop_eq_nil_iff]
      omega
  | elf e =>
    obtain ⟨s, hs, rfl⟩ := h
    have hlength := hs.length_content
    have hin := Elf.contains_of_sectionAt hs.found
    simp only [ElfSection.contains, Bool.and_eq_true, decide_eq_true_eq] at hin
    refine ⟨⟨s.name, s.addr, s.stop - 1⟩, .elf (e.sectionAt addr).2, ?_, ?_, ?_, hs.holds,
      e.sectionAt_seen addr⟩
    · have hpair : e.sectionAt addr = (some s, (e.sectionAt addr).2) := Prod.ext hs.found rfl
      rw [Image.span, hpair]
      rfl
    · rw [hlength]
      dsimp only
      omega
    · intro hnil
      rw [hnil, length_nil] at hlength
      omega
  | pe p => exact h.elim

/-- A read does not change the file. -/
theorem SameFile.read (h : img.SameFile img') (addr size : Int) :
    img.SameFile (img'.read addr size).2 := by
  obtain ⟨r, rfl, rfl⟩ | ⟨e, seen, rfl, rfl⟩ := h.cases
  · exact rfl
  · obtain ⟨seen', hseen'⟩ := Elf.sectionAt_seen { e with seen } addr
    simp only [Image.read, Elf.read]
    rcases hfound : Elf.sectionAt { e with seen } addr with ⟨s?, e'⟩
    rw [hfound] at hseen'
    dsimp only at hseen'
    subst hseen'
    cases s? with
    | none | some s => exact ⟨seen', rfl⟩

/-- Which section a number points into is clear from the file. -/
theorem SameFile.sectionOf? (h : img.SameFile img') : img'.sectionOf? = img.sectionOf? := by
  obtain ⟨r, rfl, rfl⟩ | ⟨e, seen, rfl, rfl⟩ := h.cases <;> rfl

end Image

/-- Of a program nothing has changed but what its image remembers. -/
def Program.Recalls (p p' : Program) : Prop :=
  ∃ image, p' = { p with image } ∧ ∀ file : Image, file.SameFile p.image → file.SameFile image

theorem Program.Recalls.refl (p : Program) : p.Recalls p := ⟨p.image, rfl, fun _ h => h⟩

theorem Program.recalls_read (p : Program) (addr size : Int) : p.Recalls (p.read addr size).2 :=
  ⟨(p.image.read addr size).2, rfl, fun _ h => h.read addr size⟩

/-- Reading from bytes that are held gives them. -/
theorem Program.read_of_holds {p : Program} (h : p.image.Holds addr bytes)
    (hne : bytes ≠ []) (size : Nat) : p.read addr size = (bytes.take size, p) := by
  have himage := h 0 (length_pos_iff.mpr hne) size
  rw [Nat.cast_zero, add_zero, drop_zero] at himage
  rw [Program.read, himage]

/-! ## Dumps -/

/-- The session after some text has been written. -/
def Session.printed (σ : Session) (text : String) : Session := endState (Act.print text σ)

/-- Text that goes to the console is added to what stands there. -/
theorem Session.printed_out {σ : Session} (h : σ.console.redirect = none) (text : String) :
    σ.printed text = { σ with console := { σ.console with out := σ.console.out ++ text } } :=
  Act.print_eq_ok h rfl

/-- Writing changes the console or the files, in a way that does not depend on the program. -/
theorem Session.printed_frame (σ : Session) (text : String) (q : Option Program) :
    { σ with program := q }.printed text = { σ with
      program := q, files := (σ.printed text).files, console := (σ.printed text).console } := by
  cases σ
  rename_i console
  rcases console with ⟨out, err, none | path⟩ <;> rfl

namespace Listing

/-- A listing ends well and has a text. -/
def Writes (color : Bool) (l : Listing Unit) (text : String) : Prop :=
  l.result = .ok () ∧ l.render color = text

variable {α : Type} {color : Bool}

theorem writes_put (color : Bool) (p : Piece) : Writes color (put p) (p.render color) :=
  ⟨rfl, by simp [render, put]⟩

theorem writes_write (color : Bool) (text : String) : Writes color (write text) text :=
  ⟨rfl, by simp [render, write, put, Piece.render, Ink.paint]⟩

theorem writes_newline (color : Bool) : Writes color newline "\n" := writes_put color .newline

theorem Writes.bind {l : Listing Unit} {f : Unit → Listing Unit} {text rest : String}
    (hl : Writes color l text) (hf : Writes color (f ()) rest) :
    Writes color (l >>= f) (text ++ rest) := by
  obtain ⟨hresult, rfl⟩ := hl
  obtain ⟨hrest, rfl⟩ := hf
  have hbind : l >>= f = ⟨l.pieces ++ (f ()).pieces, (f ()).result⟩ := by
    simp only [Bind.bind, andThen, hresult]
  refine ⟨by rw [hbind]; exact hrest, ?_⟩
  rw [hbind, render, map_append, String.join_append]
  rfl

/-- The texts of rows stand one after the other. -/
theorem writes_each {f : α → Listing Unit} {text : α → String} {l : List α}
    (h : ∀ a ∈ l, Writes color (f a) (text a)) :
    Writes color (each f l) (String.join (l.map text)) := by
  induction l with
  | nil => exact ⟨rfl, rfl⟩
  | cons a rest ih =>
    rw [map_cons, String.join_cons]
    exact (h a (.head _)).bind (f := fun _ => each f rest) (ih (forall_mem_cons.mp h).2)

end Listing

theorem Scene.writes_address (s : Scene) (color : Bool) (addr : Int) :
    (s.address addr 0 true).Writes color
      ((s.addressInk addr).paint color (Text.hex addr ++ ": ")) := by
  refine ⟨rfl, ?_⟩
  simp [Scene.address, Listing.render, Listing.indent, Listing.put, Bind.bind, Listing.andThen,
    Piece.render]

namespace Act

variable {α ρ : Type} {σ : Session} {p p₁ p₂ : Program} {span : SectionSpan}

theorem list_of_ok {l : Listing α} {a : α} (h : l.result = .ok a) :
    list l σ = .ok a (σ.printed (l.render σ.options.color)) := by
  unfold list
  rw [get_bind_apply, h]
  rfl

theorem listScene_of_ok {l : Scene → Listing α} {a : α} (hp : σ.program = some p)
    (h : (l (sceneOf σ p)).result = .ok a) :
    listScene l σ = .ok a (σ.printed ((l (sceneOf σ p)).render σ.options.color)) := by
  have hscene : scene σ = .ok (sceneOf σ p) σ := by
    unfold scene
    rw [bind_of_ok (program_eq_ok.mpr ⟨hp, rfl⟩)]
    rfl
  unfold listScene
  rw [bind_of_ok hscene, list_of_ok h]

theorem sectionHead_of_span (hp : σ.program = some p)
    (hspan : p.span σ.marks.entry = (some span, p₁)) :
    sectionHead σ = .ok span ({ σ with program := some p₁ }.printed
      ((Listing.sectionLine span.name span.start span.last).render σ.options.color)) := by
  have hat : sectionAt σ.marks.entry σ = .ok span { σ with program := some p₁ } := by
    unfold sectionAt
    rw [bind_of_ok (program_eq_ok.mpr ⟨hp, rfl⟩), hspan]
    rfl
  unfold sectionHead
  rw [get_bind_apply, bind_of_ok hat, bind_of_ok (list_of_ok rfl)]
  rfl

/-- A dump writes the name and the extent of its section, and then its rows. -/
theorem dump_eq (rowsOf : SectionSpan → Int → Program → List ρ × Program)
    (row : Scene → ρ → Listing Unit) {rows : List ρ} {text : ρ → String} (hp : σ.program = some p)
    (hspan : p.span σ.marks.entry = (some span, p₁))
    (hrows : rowsOf span σ.marks.entry p₁ = (rows, p₂))
    (htext : ∀ r ∈ rows, (row (sceneOf σ p₂) r).Writes σ.options.color (text r)) :
    (do
      let span ← sectionHead
      let entry := (← get).marks.entry
      let (rows, q) := rowsOf span entry (← program)
      keepProgram q
      listScene fun s => Listing.each (row s) rows : Act Unit) σ =
    .ok () (({ σ with program := some p₂ }.printed
      ((Listing.sectionLine span.name span.start span.last).render σ.options.color)).printed
      (String.join (rows.map text))) := by
  -- The head is written before the rows are read, and the program is put back in between: neither
  -- minds the other.
  have hframe := σ.printed_frame ((Listing.sectionLine span.name span.start span.last).render
    σ.options.color)
  have hhead := sectionHead_of_span hp hspan
  rw [hframe (some p₁)] at hhead
  rw [hframe (some p₂)]
  rw [bind_of_ok hhead, get_bind_apply, bind_of_ok (program_eq_ok.mpr ⟨rfl, rfl⟩), hrows]
  dsimp only [keepProgram]
  obtain ⟨hok, hrender⟩ := Listing.writes_each htext
  rw [modify_bind_apply, listScene_of_ok (p := p₂) rfl hok, ← hrender]
  rfl

end Act

/-- A session in which an image for 32-bit x86 is loaded, with no code or symbols known, that looks
at an address. -/
def Session.viewing (img : Image) (addr : Int) : Session :=
  { Session.start { Options.standard with color := false } ⟨[]⟩ with
    program := some ⟨img, ⟨.x86, .bits32, false⟩, ⟨none, []⟩, ∅, Symbols.empty⟩
    marks := { Marks.empty with entry := addr } }

/-- An ELF file with some data at 0x100. -/
def Elf.ofData (bytes : List UInt8) : Elf where
  machine := "x86"
  wordBits := 32
  bigEndian := false
  entry := 0
  sections := [⟨".data", 0x100, bytes.length, 4, 3, [], []⟩]
  file := [0x7f, 0x45, 0x4c, 0x46] ++ bytes
  seen := []

theorem Elf.ofData_rest (h : bytes ≠ []) : (Image.elf (Elf.ofData bytes)).Rest 0x100 bytes := by
  have hpos : 0 < bytes.length := length_pos_iff.mpr h
  refine ⟨⟨".data", 0x100, bytes.length, 4, 3, [], []⟩, ⟨?_, Int.natCast_nonneg 4, ?_, ?_⟩, ?_⟩
  · have hin : ElfSection.contains ⟨".data", 0x100, bytes.length, 4, 3, [], []⟩ 0x100 = true := by
      simp only [ElfSection.contains, ElfSection.stop, Bool.and_eq_true, decide_eq_true_eq]
      exact ⟨le_rfl, decide_eq_true (by omega)⟩
    simp only [Elf.sectionAt, Elf.ofData, List.find?_nil, List.find?_cons, hin]
  · simp only [Elf.ofData, length_append, length_cons, length_nil]
    omega
  · intro t ht
    cases ht
  · simp [Elf.ofData, Elf.content]

end Decompiler
