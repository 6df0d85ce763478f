import Decompiler.Image.Raw
import Decompiler.Image.Elf
import Decompiler.Image.Pe
/-!
# Images

A loaded file of any of the supported formats, and the questions that listings and analyses ask of
it. Look-ups by address return the image too, since an image remembers the sections it has been
asked about.
-/

namespace Decompiler

/-- A loaded file. -/
inductive Image where
  | raw (r : Raw)
  | elf (e : Elf)
  | pe (p : Pe)
  deriving DecidableEq, Repr

namespace Image

def isPe : Image → Bool
  | pe _ => true
  | _ => false

/-- The name of the format. -/
def format : Image → String
  | raw _ => "RAW"
  | elf _ => "ELF"
  | pe _ => "PE"

/-- The section of an address. -/
def span (img : Image) (addr : Int) : Option SectionSpan × Image :=
  match img with
  | raw r => (some r.span, img)
  | elf e =>
    let (s?, e) := e.sectionAt addr
    (s?.map fun s => ⟨s.name, s.addr, s.stop - 1⟩, elf e)
  | pe p =>
    let (s?, p) := p.sectionAt addr
    (s?.map fun s => ⟨s.label, s.addr + p.base, s.addr + p.base + s.size - 1⟩, pe p)

/-- Whether an address is in the image, and whether it is executable. -/
def checkAddr (img : Image) (addr : Int) : (Bool × Bool) × Image :=
  match img with
  | raw r => ((r.contains addr, r.contains addr), img)
  | elf e =>
    let (s?, e) := e.sectionAt addr
    ((s?.isSome, s?.any ElfSection.isExec), elf e)
  | pe p =>
    let (s?, p) := p.sectionAt addr
    ((s?.isSome, s?.any PeSection.isExec), pe p)

/-- Up to `size` bytes from an address on, within its section. -/
def read (img : Image) (addr size : Int) : List UInt8 × Image :=
  match img with
  | raw r => (r.read addr size, img)
  | elf e =>
    let (bytes, e) := e.read addr size
    (bytes, elf e)
  | pe p =>
    let (bytes, p) := p.read addr size
    (bytes, pe p)

/-- The section that a number is an address of, and whether that section holds data. -/
def sectionOf? (img : Image) (n : Int) : Option (String × Bool) :=
  match img with
  | raw _ => none
  | elf e => e.sectionOf? n
  | pe p => p.sectionOf? n

/-- The quoted text at an address, at most `max` characters of it. -/
def stringAt (img : Image) (addr max : Int) : Except Fault String :=
  match img with
  | raw _ => .error .noStrings
  | elf e => .ok (e.stringAt addr max)
  | pe p => p.stringAt addr max

/-- Whether an address is in a data section; only PE images keep this apart. -/
def isDataAddr (img : Image) (addr : Int) : Except Fault Bool :=
  match img with
  | pe p => .ok (p.dataSection? addr).isSome
  | _ => .error .noDataMap

/-- The target of the code; none if it is not supported. -/
def target (img : Image) : Except Fault (Option Target) :=
  match img with
  | raw r => r.target.map some
  | elf e => e.target
  | pe p => .ok p.target

/-- The name of the machine that the image declares. -/
def machineName (img : Image) : Except Fault String :=
  match img with
  | raw _ => .ok ""
  | elf e => .ok e.machine
  | pe p => p.machineName

/-- The symbols that the file lists. -/
def symbols (img : Image) : Except Fault Symbols :=
  match img with
  | raw _ => .ok Symbols.empty
  | elf e => e.symbols
  | pe p => p.symbols

/-- Where a section begins. -/
def sectionStart (img : Image) (name : String) : Except Fault Int :=
  let start? : Option Int :=
    match img with
    | raw _ => some 0
    | elf e => (e.sectionNamed? name).map (·.addr)
    | pe p => (p.sections.find? (·.label = name)).map fun s => p.base + s.addr
  match start? with
  | some addr => if addr = -1 then .error (.sectionNotFound name) else .ok addr
  | none => .error (.sectionNotFound name)

/-- Where the program starts. -/
def entryPoint (img : Image) : Int :=
  match img with
  | raw _ => 0
  | elf e => e.entry
  | pe p => p.base + p.entry

/-- The named sections with their first address and the address after their last byte. -/
def sections (img : Image) : List (String × Int × Int) :=
  match img with
  | raw _ => []
  | elf e => (e.sections.filter (·.name ≠ "")).map fun s => (s.name, s.addr, s.stop)
  | pe p =>
    (p.sections.filter (·.name ≠ "")).map fun s =>
      (s.label, p.base + s.addr, p.base + s.addr + s.size)

end Image

end Decompiler
