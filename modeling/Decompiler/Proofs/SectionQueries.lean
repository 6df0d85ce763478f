import Decompiler.Proofs.Lookups
/-!
# Questions about addresses

An ELF file is asked whether an address is mapped, for the section of an address, and for bytes
(`Query`). It remembers the sections that it has found and tries those first, in the order in which
it found them, while a file that was just opened takes the first one of its table. The two agree on
every question after every history exactly if no section that is first at one of its addresses is
hidden by another one elsewhere (`Elf.answers_independent_iff`). Sections that do not overlap are of
this kind; the unallocated sections of a file, which all begin at zero, are not.
-/

namespace Decompiler

open List

/-! ## Questions and answers -/

/-- A question about an address. -/
inductive Query where
  | check (addr : Int)
  | span (addr : Int)
  | read (addr size : Int)
  deriving DecidableEq, Repr

/-- The address that a question is about. -/
def Query.addr : Query → Int
  | check addr => addr
  | span addr => addr
  | read addr _ => addr

/-- What is said about an address: whether it is mapped and whether it is executable, its section,
or bytes. -/
inductive Answer where
  | checked (mapped executable : Bool)
  | extent (span? : Option SectionSpan)
  | bytes (bytes : List UInt8)
  deriving DecidableEq, Repr

namespace Image

/-- Asks a question. -/
def ask (img : Image) : Query → Answer × Image
  | .check addr => ((img.checkAddr addr).map (fun c => .checked c.1 c.2) id)
  | .span addr => ((img.span addr).map .extent id)
  | .read addr size => ((img.read addr size).map .bytes id)

/-- Asks one question after the other, and forgets the answers. -/
def askAll (img : Image) (history : List Query) : Image :=
  history.foldl (fun img q => (img.ask q).2) img

end Image

namespace Elf

/-- The file as it is when it has just been opened. -/
def opened (e : Elf) : Elf := { e with seen := [] }

/-- The first section of the table that holds an address. -/
def first? (e : Elf) (addr : Int) : Option ElfSection := e.sections.find? (·.contains addr)

/-- What the file holds from an address of a section on, to its end. -/
def fromAddr (e : Elf) (s : ElfSection) (addr : Int) : List UInt8 :=
  e.file.drop (s.offset + (addr - s.addr)).toNat

/-- The answer to a question about an address of a section, or of none. -/
def answer (e : Elf) (s? : Option ElfSection) : Query → Answer
  | .check _ => .checked s?.isSome (s?.any ElfSection.isExec)
  | .span _ => .extent (s?.map fun s => ⟨s.name, s.addr, s.stop - 1⟩)
  | .read addr size =>
    .bytes <| s?.elim [] fun s =>
      let n := min size (s.stop - addr)
      if n < 0 then e.fromAddr s addr else (e.fromAddr s addr).take n.toNat

/-- A question is answered from the section of its address, which is looked up. -/
theorem ask_eq (e : Elf) (q : Query) :
    (Image.elf e).ask q = (e.answer (e.sectionAt q.addr).1 q, .elf (e.sectionAt q.addr).2) := by
  cases q with
  | check addr | span addr => rfl
  | read addr size =>
    obtain ⟨seen, hseen⟩ := e.sectionAt_seen addr
    simp only [Image.ask, Image.read, Elf.read, Query.addr]
    rcases hfound : e.sectionAt addr with ⟨s?, e'⟩
    obtain rfl : e' = { e with seen } := by rw [← hseen, hfound]
    cases s? with
    | none | some s => rfl

/-! ## Sections that answer alike -/

/-- Two sections answer the same questions about an address alike: they have one name and one
extent, both or neither are executable, and the file goes on in the same way from the address on. -/
structure AlikeAt (e : Elf) (addr : Int) (s t : ElfSection) : Prop where
  name : s.name = t.name
  start : s.addr = t.addr
  stop : s.stop = t.stop
  exec : s.isExec = t.isExec
  bytes : e.fromAddr s addr = e.fromAddr t addr

theorem AlikeAt.refl (e : Elf) (addr : Int) (s : ElfSection) : e.AlikeAt addr s s :=
  ⟨rfl, rfl, rfl, rfl, rfl⟩

variable {e : Elf} {s : ElfSection}

theorem AlikeAt.answer_eq {q : Query} {t : ElfSection} (h : e.AlikeAt q.addr s t) :
    e.answer (some s) q = e.answer (some t) q := by
  cases q with
  | check addr => simp only [answer, Option.any_some, h.exec, Option.isSome_some]
  | span addr => simp only [answer, Option.map_some, h.name, h.start, h.stop]
  | read addr size =>
    have hbytes : e.fromAddr s addr = e.fromAddr t addr := h.bytes
    simp only [answer, Option.elim_some, h.stop, hbytes]

/-- Sections are alike if the answers are. A read of a negative size tells all that the file holds
from the address on. -/
theorem AlikeAt.of_answers {addr : Int} {t? : Option ElfSection} (hs : s.contains addr = true)
    (h : ∀ q : Query, q.addr = addr → e.answer (some s) q = e.answer t? q) :
    ∃ t, t? = some t ∧ e.AlikeAt addr s t := by
  have hcheck := h (.check addr) rfl
  have hspan := h (.span addr) rfl
  have hread := h (.read addr (-1)) rfl
  cases t? with
  | none => simp [answer] at hcheck
  | some t =>
    simp only [answer, Option.isSome_some, Option.any_some, Answer.checked.injEq, true_and]
      at hcheck
    simp only [answer, Option.map_some, Answer.extent.injEq, Option.some.injEq,
      SectionSpan.mk.injEq] at hspan
    obtain ⟨hname, hstart, hlast⟩ := hspan
    have hstop : s.stop = t.stop := by omega
    have hinside : addr < s.stop := by
      simp only [ElfSection.contains, Bool.and_eq_true, decide_eq_true_eq] at hs
      exact hs.2
    have hnegative : min (-1) (t.stop - addr) < 0 := by omega
    simp only [answer, Option.elim_some, hstop, hnegative, if_true, Answer.bytes.injEq] at hread
    exact ⟨t, rfl, hname, hstart, hstop, hcheck, hread⟩

/-- A section that is the first of the table at one of its addresses is so at all of them, up to
sections that answer alike. -/
def Unambiguous (e : Elf) : Prop :=
  ∀ x s, e.first? x = some s → ∀ y, s.contains y = true → ∃ t, e.first? y = some t ∧ e.AlikeAt y s t

theorem Disjoint.unambiguous (h : e.Disjoint) : e.Unambiguous := by
  intro x s hs y hy
  exact ⟨s, find?_sections h (mem_of_find?_eq_some hs) hy, AlikeAt.refl e y s⟩

/-! ## Histories -/

/-- The file after questions: the same, with some sections remembered that were the first of the
table somewhere. -/
def Asked (e e' : Elf) : Prop := ∃ seen, e' = { e with seen } ∧ ∀ s ∈ seen, ∃ x, e.first? x = some s

theorem asked_opened (e : Elf) : e.Asked e.opened := ⟨[], rfl, fun _ h => by cases h⟩

/-- A look-up gives the first section of the table, or one that was first elsewhere. -/
theorem Asked.sectionAt {e' : Elf} (h : e.Asked e') (addr : Int) :
    e.Asked (e'.sectionAt addr).2 ∧ ((e'.sectionAt addr).1 = e.first? addr ∨
      ∃ s x, (e'.sectionAt addr).1 = some s ∧ s.contains addr = true ∧ e.first? x = some s) := by
  obtain ⟨seen, rfl, hseen⟩ := h
  unfold Elf.sectionAt
  cases hfound : seen.find? (·.contains addr) with
  | some s =>
    obtain ⟨x, hx⟩ := hseen s (mem_of_find?_eq_some hfound)
    have hin : s.contains addr = true := by simpa using List.find?_some hfound
    exact ⟨⟨seen, rfl, hseen⟩, .inr ⟨s, x, rfl, hin, hx⟩⟩
  | none =>
    cases hfirst : e.sections.find? (·.contains addr) with
    | none => exact ⟨⟨seen, rfl, hseen⟩, .inl hfirst.symm⟩
    | some s =>
      refine ⟨⟨seen ++ [s], rfl, fun t ht => ?_⟩, .inl hfirst.symm⟩
      rcases mem_append.mp ht with ht | ht
      · exact hseen t ht
      · rw [mem_singleton.mp ht]
        exact ⟨addr, hfirst⟩

/-- Questions leave the file as it is, with sections remembered that were first somewhere. -/
theorem Asked.askAll (history : List Query) : ∀ {e' : Elf}, e.Asked e' →
    ∃ e'', (Image.elf e').askAll history = .elf e'' ∧ e.Asked e'' := by
  induction history with
  | nil => intro e' h; exact ⟨e', rfl, h⟩
  | cons q rest ih =>
    intro e' h
    obtain ⟨e'', hrest, hasked⟩ := ih (h.sectionAt q.addr).1
    refine ⟨e'', ?_, hasked⟩
    rw [← hrest, Image.askAll, foldl_cons, ask_eq]
    rfl

theorem Asked.answer_eq {e' : Elf} (h : e.Asked e') : e'.answer = e.answer := by
  obtain ⟨seen, rfl, -⟩ := h
  funext s? q
  cases q <;> rfl

/-- A file that was just opened answers from the first section of its table. -/
theorem ask_opened (e : Elf) (q : Query) :
    ((Image.elf e.opened).ask q).1 = e.answer (e.first? q.addr) q := by
  have hfirst : (e.opened.sectionAt q.addr).1 = e.first? q.addr := by
    simp only [Elf.sectionAt, opened, List.find?_nil, first?]
    cases e.sections.find? (·.contains q.addr) <;> rfl
  rw [ask_eq, hfirst, (asked_opened e).answer_eq]

/-- After a question about an address whose first section is `s`, all addresses of `s` are answered
from it. -/
theorem ask_after {x : Int} (hs : e.first? x = some s) {q : Query} (hq : s.contains q.addr = true) :
    (((Image.elf e.opened).askAll [.span x]).ask q).1 = e.answer (some s) q := by
  have hremembered : (e.opened.sectionAt x).2 = { e with seen := [s] } := by
    have hs' : e.sections.find? (·.contains x) = some s := hs
    simp only [Elf.sectionAt, opened, List.find?_nil, hs', nil_append]
  have hone : [s].find? (·.contains q.addr) = some s := List.find?_cons_of_pos hq
  have hfound : (Elf.sectionAt { e with seen := [s] } q.addr).1 = some s := by
    simp only [Elf.sectionAt, hone]
  have hask : (Image.elf e.opened).askAll [.span x] = .elf { e with seen := [s] } := by
    simp only [Image.askAll, foldl_cons, foldl_nil, ask_eq, Query.addr, hremembered]
  rw [hask, ask_eq, hfound]
  cases q <;> rfl

/-- No history changes an answer, for any question about any address, exactly if every section that
is the first of the table somewhere is the first, or like the first, at all its addresses. This is
so if no two sections overlap. -/
theorem answers_independent_iff (e : Elf) :
    ((∀ (history : List Query) (q : Query),
      (((Image.elf e.opened).askAll history).ask q).1 = ((Image.elf e.opened).ask q).1) ↔
    e.Unambiguous) ∧ (e.Disjoint → e.Unambiguous) := by
  refine ⟨?_, Disjoint.unambiguous⟩
  constructor
  · intro h x s hs y hy
    -- One question is enough to make the file remember `s`.
    refine AlikeAt.of_answers hy fun q hq => ?_
    subst hq
    rw [← ask_after hs hy, h, ask_opened]
  · intro h history q
    obtain ⟨e', hrun, hasked⟩ := (asked_opened e).askAll history
    rw [hrun, ask_eq, ask_opened, hasked.answer_eq]
    rcases (hasked.sectionAt q.addr).2 with hfirst | ⟨s, x, hfound, hin, hx⟩
    · rw [hfirst]
    · obtain ⟨t, ht, halike⟩ := h x s hx q.addr hin
      rw [hfound, ht, halike.answer_eq]

/-- A file with two sections that are not loaded, and so both begin at zero. -/
def twoUnloaded : Elf where
  machine := "x86"
  wordBits := 32
  bigEndian := false
  entry := 0
  sections := [⟨".comment", 0, 2, 4, 0, [], []⟩, ⟨".shstrtab", 0, 4, 0, 0, [], []⟩]
  file := [0x7f, 0x45, 0x4c, 0x46, 0x47, 0x43]
  seen := []

/-- The section of the address 1 is `.comment`, but `.shstrtab` once the address 3 has been asked
for. -/
theorem answer_depends_on_history :
    ((Image.elf twoUnloaded.opened).ask (.span 1)).1 = .extent (some ⟨".comment", 0, 1⟩) ∧
    (((Image.elf twoUnloaded.opened).askAll [.span 3]).ask (.span 1)).1 =
    .extent (some ⟨".shstrtab", 0, 3⟩) ∧ ¬ ∀ (history : List Query) (q : Query),
      (((Image.elf twoUnloaded.opened).askAll history).ask q).1 =
        ((Image.elf twoUnloaded.opened).ask q).1 := by
  have hfresh : ((Image.elf twoUnloaded.opened).ask (.span 1)).1 =
      .extent (some ⟨".comment", 0, 1⟩) := by decide
  have hafter : (((Image.elf twoUnloaded.opened).askAll [.span 3]).ask (.span 1)).1 =
      .extent (some ⟨".shstrtab", 0, 3⟩) := by decide
  refine ⟨hfresh, hafter, fun h => ?_⟩
  have heq := h [.span 3] (.span 1)
  rw [hfresh, hafter] at heq
  exact absurd heq (by decide)

end Elf

end Decompiler
