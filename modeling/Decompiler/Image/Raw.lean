import Decompiler.Bytes
import Decompiler.Image.Target
/-!
# Raw images

A file of bare machine code, loaded at a base address. The whole file is one executable section.
-/

namespace Decompiler

/-- A raw image: machine type, base address, byte order and the bytes. -/
structure Raw where
  type : String
  base : Int
  bigEndian : Bool
  file : List UInt8
  deriving DecidableEq, Repr

namespace Raw

/-- Whether an address is inside the file. -/
def contains (r : Raw) (addr : Int) : Bool := r.base ≤ addr && addr - r.base < r.file.length

/-- The section of every address. -/
def span (r : Raw) : SectionSpan := ⟨"raw", r.base, r.base + r.file.length - 1⟩

/-- Up to `size` bytes from an address on. -/
def read (r : Raw) (addr size : Int) : List UInt8 :=
  if r.contains addr then
    let offset := addr - r.base
    slice r.file offset (offset + min size (r.base + r.file.length - offset))
  else []

/-- The target named by the machine type. -/
def target (r : Raw) : Except Fault Target :=
  match r.type with
  | "x86" => .ok ⟨.x86, .bits32, r.bigEndian⟩
  | "x64" => .ok ⟨.x86, .bits64, r.bigEndian⟩
  | "arm" => .ok ⟨.arm, .fixed, r.bigEndian⟩
  | "mips" => .ok ⟨.mips, .bits32, r.bigEndian⟩
  | "mips64" => .ok ⟨.mips, .bits64, r.bigEndian⟩
  | other => .error (.unknownRawType other)

end Raw

end Decompiler
