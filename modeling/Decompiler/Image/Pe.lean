import Decompiler.Symbols
import Decompiler.Text.Printable
import Decompiler.Image.Coff
import Decompiler.Image.Target
/-!
# PE images

A PE file through its headers and section table. Section addresses are relative to the image base.
Symbols come from the COFF symbol table and from the import directory, where an import by number has
no name.

The library that reads the format decides which relative addresses are in a section and which bytes
of the file are its own. These decisions are data of the section here, and nothing is assumed of
them.

Section look-ups remember the sections they have found and try those first.
-/

namespace Decompiler

/-- A section of a PE file; the name is padded with zeros or blanks. -/
structure PeSection where
  name : String
  addr : Int
  size : Int
  flags : Int
  /-- The relative addresses that the library takes to be in the section: from `first` on, before
  `stop`. -/
  first : Int
  stop : Int
  /-- The bytes of the file that it gives for them: from `offset` on, before `fileStop`. -/
  offset : Int
  fileStop : Int
  deriving DecidableEq, Repr

namespace PeSection

/-- The name without its padding. -/
def label (s : PeSection) : String :=
  String.ofList (s.name.toList.reverse.dropWhile (fun c => c = ' ' || c = '\x00')).reverse

def hasFlag (s : PeSection) (bit : Nat) : Bool := s.flags.toNat.testBit bit

/-- Whether the section holds machine code. -/
def isExec (s : PeSection) : Bool := s.hasFlag 29

/-- Whether the section holds data: initialised, readable or writable, and not code. -/
def isData (s : PeSection) : Bool := (s.hasFlag 6 || s.hasFlag 30 || s.hasFlag 31) && !s.isExec

/-- Whether an address, relative to the base, is inside the part of the section that is in the
file. -/
def holds (s : PeSection) (rva : Int) : Bool := s.addr ≤ rva && rva < s.addr + s.size

end PeSection

/-- What the import directory says: nothing, a failure, or the imports in order. -/
inductive PeImports where
  | missing
  | unreadable (text : String)
  | listed (entries : List (Int × SymbolName))
  deriving DecidableEq, Repr

structure Pe where
  machine : Int
  magic : Int
  base : Int
  alignment : Int
  entry : Int
  symbolOffset : Int
  symbolCount : Int
  sections : List PeSection
  imports : PeImports
  file : List UInt8
  /-- The sections that look-ups have found so far. -/
  seen : List PeSection
  deriving DecidableEq, Repr

namespace Pe

/-- The first section that the library finds a relative address in. -/
def sectionByRva? (rva : Int) (sections : List PeSection) : Option PeSection :=
  sections.find? fun s => s.first ≤ rva && rva < s.stop

/-- The section of an address: one seen before if possible, else the first of the table, which is
then remembered. -/
def sectionAt (p : Pe) (addr : Int) : Option PeSection × Pe :=
  match p.seen.find? (·.holds (addr - p.base)) with
  | some s => (some s, p)
  | none =>
    match sectionByRva? (addr - p.base) p.sections with
    | some s => (some s, { p with seen := p.seen ++ [s] })
    | none => (none, p)

/-- The bytes that the library gives from a relative address on, `length` of them and not beyond the
section's end. -/
def data (p : Pe) (s : PeSection) (rva length : Int) : List UInt8 :=
  let offset := rva - s.first + s.offset
  slice p.file offset (min (offset + length) s.fileStop)

/-- The contents of a section, as far as the file holds them. -/
def content (p : Pe) (s : PeSection) : List UInt8 := p.data s s.first s.size

/-- Up to `size` bytes from an address on, within its section. -/
def read (p : Pe) (addr size : Int) : List UInt8 × Pe :=
  match p.sectionAt addr with
  | (none, p) => ([], p)
  | (some s, p) => (p.data s (addr - p.base) (min size (p.base + s.addr + s.size - addr)), p)

/-- The section that a number is an address of, and whether that section holds data. -/
def sectionOf? (p : Pe) (n : Int) : Option (String × Bool) :=
  if p.base < n then (sectionByRva? (n - p.base) p.sections).map fun s =>
    (s.label, s.isData) else none

/-- The data section of an address. -/
def dataSection? (p : Pe) (addr : Int) : Option PeSection :=
  p.sections.find? (fun s => s.isData && s.holds (addr - p.base))

/-- How a scan for a text ended. -/
inductive TextScan where
  /-- The pieces of the text, and whether it was cut short. -/
  | found (pieces : List String) (cut : Bool)
  /-- A byte stands where a text of two-byte characters has a zero. -/
  | notWide
  deriving DecidableEq, Repr

/-- Adds a piece in front of a text. -/
def TextScan.cons (piece : String) : TextScan → TextScan
  | found pieces cut => found (piece :: pieces) cut
  | notWide => notWide

/-- Collects a text from the rest of a section of which `room` bytes remain. A text of two-byte
characters has a zero after each character; `odd` says that such a zero is due, and only the
characters count against the limit. `last` is the byte before. -/
def scanText (wide : Bool) : (room : Nat) → (limit : Int) → (odd : Bool) → (last : UInt8) →
    List UInt8 → Except Fault TextScan
  | 0, _, _, _, _ => .ok (.found [] false)
  | room + 1, limit, odd, last, bytes =>
    if limit ≤ 0 then .ok (.found [] (last ≠ 0))
    else
      match bytes with
      | [] => .error .truncatedText
      | b :: rest =>
        if b = 0 then
          if wide && odd then scanText wide room limit (!odd) b rest
          else .ok (.found [] false)
        else if wide && odd then .ok .notWide
        else (scanText wide room (limit - 1) (!odd) b rest).map
          (TextScan.cons (Text.byteText b.toNat))

/-- The quoted text at an address of a data section, at most `max` characters of it. It is read as a
text of two-byte characters if it looks like one. -/
def stringAt (p : Pe) (addr max : Int) : Except Fault String :=
  match p.dataSection? addr with
  | none => .ok ""
  | some s =>
    if max ≤ 0 then .error .emptyText
    else do
      let offset := addr - s.addr - p.base
      let room := (s.size - offset).toNat
      let bytes := (p.content s).drop offset.toNat
      let scan ← scanText true room max false 0 bytes
      let scan ← if scan = .notWide then scanText false room max false 0 bytes else pure scan
      match scan with
      | .found pieces cut => return "\"" ++ String.join pieces ++ (if cut then "...\"" else "\"")
      | .notWide => return ""

/-- The target named by the headers; none if machine or header kind is not supported. -/
def target (p : Pe) : Option Target :=
  if p.machine = 0x14c || p.machine = 0x8664 then
    if p.magic = 0x10b then some ⟨.x86, .bits32, false⟩
    else if p.magic = 0x20b then some ⟨.x86, .bits64, false⟩
    else none
  else none

/-- The name of the machine type. -/
def machineName (p : Pe) : Except Fault String :=
  if p.machine = 0x14c then .ok "IMAGE_FILE_MACHINE_I386"
  else if p.machine = 0x8664 then .ok "IMAGE_FILE_MACHINE_AMD64"
  else if p.machine = 0x1c0 then .ok "IMAGE_FILE_MACHINE_ARM"
  else if p.machine = 0x200 then .ok "IMAGE_FILE_MACHINE_IA64"
  else .error (.unknownMachine p.machine)

/-! ## Symbols -/

/-- The symbols of the COFF table; their values count from the first page after the base. -/
def addStatic (p : Pe) (syms : Symbols) : Except Fault Symbols := do
  let strings := p.symbolOffset + Coff.recordSize * p.symbolCount
  let found ← Coff.externals p.file strings p.symbolCount.toNat p.symbolOffset p.symbolCount
  return found.foldl (fun acc sym => acc.define (some sym.1) (sym.2 + (p.base + p.alignment))) syms

/-- The imports, by the address of their slot. -/
def importTable (p : Pe) : Except Fault (List (Int × SymbolName)) :=
  match p.imports with
  | .missing => .error .noImports
  | .unreadable text => .error (.importFailure text)
  | .listed entries => .ok entries

/-- All symbols of the file. -/
def symbols (p : Pe) : Except Fault Symbols := do
  let syms ← p.addStatic Symbols.empty
  let imports ← p.importTable
  return imports.foldl (fun acc e => acc.define e.2 e.1) syms

/-- The name of the import whose slot is at an address; the last listing counts. -/
def importAt? (p : Pe) (addr : Int) : Option SymbolName :=
  match p.imports with
  | .listed entries => (OrdMap.ofList entries).get? addr
  | _ => none

end Pe

end Decompiler
