import Decompiler.Bytes
import Decompiler.Symbols
import Decompiler.Text.Printable
import Decompiler.Image.Target
/-!
# ELF images

An ELF file through its section table: sections with their addresses, contents and flags, the symbol
table, and the relocations of the linkage table, from which the stubs of imported functions get
their names.

Section look-ups remember the sections they have found and try those first.
-/

namespace Decompiler

structure ElfSection where
  name : String
  addr : Int
  size : Int
  offset : Int
  flags : Int
  /-- The symbols listed in the section: name and value. -/
  symbols : List (String × Int)
  /-- The symbol numbers of the relocations listed in the section. -/
  relocations : List Int
  deriving DecidableEq, Repr

namespace ElfSection

/-- The address after the last byte. -/
def stop (s : ElfSection) : Int := s.addr + s.size

/-- Whether an address is inside the section. -/
def contains (s : ElfSection) (addr : Int) : Bool := s.addr ≤ addr && addr < s.stop

def hasFlag (s : ElfSection) (bit : Nat) : Bool := s.flags.toNat.testBit bit

/-- Whether the section holds machine code. -/
def isExec (s : ElfSection) : Bool := s.hasFlag 2

/-- Whether the section holds data: writable or present in memory, and not code. -/
def isData (s : ElfSection) : Bool := (s.hasFlag 0 || s.hasFlag 1) && !s.isExec

end ElfSection

structure Elf where
  machine : String
  /-- The word size in bits that the file declares. -/
  wordBits : Int
  bigEndian : Bool
  entry : Int
  sections : List ElfSection
  file : List UInt8
  /-- The sections that look-ups have found so far. -/
  seen : List ElfSection
  deriving DecidableEq, Repr

namespace Elf

/-- The last section of a name. -/
def sectionNamed? (e : Elf) (name : String) : Option ElfSection :=
  e.sections.reverse.find? (·.name = name)

/-- The contents of a section, as far as the file holds them. -/
def content (e : Elf) (s : ElfSection) : List UInt8 :=
  (e.file.drop s.offset.toNat).take s.size.toNat

/-- The section of an address: one seen before if possible, else the first of the table, which is
then remembered. -/
def sectionAt (e : Elf) (addr : Int) : Option ElfSection × Elf :=
  match e.seen.find? (·.contains addr) with
  | some s => (some s, e)
  | none =>
    match e.sections.find? (·.contains addr) with
    | some s => (some s, { e with seen := e.seen ++ [s] })
    | none => (none, e)

/-- Up to `size` bytes from an address on, within its section; a negative size means all of the
file. -/
def read (e : Elf) (addr size : Int) : List UInt8 × Elf :=
  match e.sectionAt addr with
  | (none, e) => ([], e)
  | (some s, e) =>
    let rest := e.file.drop (s.offset + (addr - s.addr)).toNat
    let n := min size (s.stop - addr)
    (if n < 0 then rest else rest.take n.toNat, e)

/-- The loaded section that a number is an address of, and whether that section holds data. -/
def sectionOf? (e : Elf) (n : Int) : Option (String × Bool) :=
  (e.sections.find? (fun s => s.addr ≠ 0 && s.contains n)).map fun s => (s.name, s.isData)

/-- Collects a text up to a zero byte: its pieces, and whether it was cut short by the limit. -/
def scanText : (limit : Nat) → List UInt8 → List String × Bool
  | 0, rest => ([], !rest.isEmpty)
  | _ + 1, [] => ([], false)
  | limit + 1, b :: rest =>
    if b = 0 then ([], false)
    else
      let (pieces, cut) := scanText limit rest
      (Text.byteText b.toNat :: pieces, cut)

/-- The quoted text at an address of a data section, at most `max` characters of it. -/
def stringAt (e : Elf) (addr max : Int) : String :=
  match e.sections.find? (fun s => s.isData && s.contains addr) with
  | none => ""
  | some s =>
    if max ≤ 0 then "\"\""
    else
      let (pieces, cut) := scanText max.toNat ((e.content s).drop (addr - s.addr).toNat)
      "\"" ++ String.join pieces ++ (if cut then "...\"" else "\"")

/-- The target named by the header; none if the machine is not supported. -/
def target (e : Elf) : Except Fault (Option Target) :=
  match e.machine with
  | "x86" => .ok (some ⟨.x86, .bits32, e.bigEndian⟩)
  | "x64" => .ok (some ⟨.x86, .bits64, e.bigEndian⟩)
  | "ARM" => .ok (some ⟨.arm, .fixed, e.bigEndian⟩)
  | "MIPS" =>
    if e.wordBits = 32 then .ok (some ⟨.mips, .bits32, e.bigEndian⟩)
    else if e.wordBits = 64 then .ok (some ⟨.mips, .bits64, e.bigEndian⟩)
    else .error (.unknownMachine e.wordBits)
  | _ => .ok none

/-! ## Symbols -/

/-- Adds the named symbols of the static symbol table that have an address. -/
def addStatic (e : Elf) (syms : Symbols) : Symbols :=
  match e.sectionNamed? ".symtab" with
  | none => syms
  | some table =>
    table.symbols.foldl
      (fun acc sym => if sym.2 ≠ 0 && sym.1 ≠ "" then acc.define (some sym.1) sym.2 else acc) syms

/-- Names the stubs of the linkage table one after another, as long as one starts before `stop`. -/
def nameStubs (names : List String) (stop step : Int) :
    (addr : Int) → (relocations : List Int) → Symbols → Except Fault Symbols
  | addr, [], syms => if addr < stop then .error .badRelocation else .ok syms
  | addr, number :: rest, syms =>
    if addr < stop then
      match position? names number with
      | none => .error .badRelocation
      | some name =>
        nameStubs names stop step (addr + step) rest (syms.define (some (name ++ "@plt")) addr)
    else .ok syms

/-- Adds the stubs of imported functions, each named after the import it leads to. -/
def addStubs (e : Elf) (syms : Symbols) : Except Fault Symbols :=
  let relocations? :=
    match e.sectionNamed? ".rela.plt" with
    | some s => some s
    | none => e.sectionNamed? ".rel.plt"
  match relocations?, e.sectionNamed? ".dynsym" with
  | some rel, some dyn =>
    if e.machine = "MIPS" then .ok syms
    else
      match e.sectionNamed? ".plt" with
      | none => .error .noLinkageTable
      | some plt =>
        let (first, step) : Int × Int := if e.machine = "ARM" then (20, 12) else (16, 16)
        nameStubs (dyn.symbols.map Prod.fst) plt.stop step (plt.addr + first) rel.relocations syms
  | _, _ => .ok syms

/-- All symbols of the file. -/
def symbols (e : Elf) : Except Fault Symbols := e.addStubs (e.addStatic Symbols.empty)

end Elf

end Decompiler
