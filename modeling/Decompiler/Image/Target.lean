import Decompiler.Arch
/-!
# What code is made for

The machine family, the word size and the byte order of the code in an image. The decoder knows a
target by two numbers, one for the family and one for the mode.
-/

namespace Decompiler

/-- The word size a decoder works with; ARM code has a mode of its own. -/
inductive WordSize where
  | fixed
  | bits32
  | bits64
  deriving DecidableEq, Repr

/-- The target of the code in an image. -/
structure Target where
  arch : Arch
  word : WordSize
  bigEndian : Bool
  deriving DecidableEq, Repr

namespace Target

/-- The decoder's number of the machine family. -/
def archNumber (t : Target) : Nat :=
  match t.arch with
  | .arm => 0
  | .mips => 2
  | .x86 => 3

/-- The decoder's number of the mode: word size and byte order together. -/
def modeNumber (t : Target) : Nat :=
  (match t.word with
    | .fixed => 0
    | .bits32 => 4
    | .bits64 => 8) + if t.bigEndian then 2147483648 else 0

end Target

/-- A section of an image: its name and the addresses of its first byte and of its last byte. -/
structure SectionSpan where
  name : String
  start : Int
  last : Int
  deriving DecidableEq, Repr

end Decompiler
