import Decompiler.Slice
/-!
# Bytes and words

A file is a list of bytes. Words are read from it in either byte order.
-/

namespace Decompiler

/-- The number a row of bytes stands for, least significant byte first. -/
def littleEndian : List UInt8 → Nat
  | [] => 0
  | b :: rest => b.toNat + 256 * littleEndian rest

/-- The number a row of bytes stands for, most significant byte first. -/
def bigEndian (bytes : List UInt8) : Nat := littleEndian bytes.reverse

/-- The number a row of bytes stands for in the given byte order. -/
def wordValue (big : Bool) (bytes : List UInt8) : Nat :=
  if big then bigEndian bytes else littleEndian bytes

/-- The text that bytes encode, if they are well-formed UTF-8. -/
def utf8? (bytes : List UInt8) : Option String := String.fromUTF8? ⟨bytes.toArray⟩

end Decompiler
