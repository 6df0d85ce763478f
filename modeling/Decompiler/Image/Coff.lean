import Decompiler.Bytes
import Decompiler.Fault
/-!
# COFF symbol records

A symbol table is a row of records of eighteen bytes: eight for the name, four for the value, two
each for section and type, one for the storage class and one for the number of auxiliary records
that follow. A name of more than eight bytes is kept in the string table after the records, and its
place there is given instead.
-/

namespace Decompiler.Coff

/-- The length of a symbol record. -/
def recordSize : Nat := 18

/-- A symbol record. -/
structure Record where
  name : List UInt8
  value : Nat
  storageClass : Nat
  auxiliaries : Nat
  deriving DecidableEq, Repr

/-- The record at an offset of the file. -/
def record? (file : List UInt8) (offset : Int) : Option Record :=
  if file.length < offset + recordSize then none
  else
    let bytes := slice file offset (offset + recordSize)
    some {
      name := bytes.take 8
      value := littleEndian ((bytes.drop 8).take 4)
      storageClass := littleEndian ((bytes.drop 16).take 1)
      auxiliaries := littleEndian ((bytes.drop 17).take 1) }

/-- Reads bytes up to a zero byte, each as one character. -/
def textUntilZero : List UInt8 → Except Fault (List Char)
  | [] => .error .truncatedText
  | b :: rest => if b = 0 then .ok [] else (textUntilZero rest).map (Char.ofNat b.toNat :: ·)

/-- The name of a record, given where the string table starts. -/
def Record.text (r : Record) (file : List UInt8) (strings : Int) : Except Fault String :=
  if littleEndian (r.name.take 4) ≠ 0 then
    match utf8? (r.name.takeWhile (· ≠ 0)) with
    | some s => .ok s
    | none => .error .badEncoding
  else
    (textUntilZero (file.drop (strings + littleEndian (r.name.drop 4)).toNat)).map String.ofList

/-- The external symbols of `count` records from an offset on: name and value, in order. -/
def externals (file : List UInt8) (strings : Int) :
    (fuel : Nat) → (offset count : Int) → Except Fault (List (String × Nat))
  | 0, _, _ => .ok []
  | fuel + 1, offset, count =>
    if count ≤ 0 then .ok []
    else
      match record? file offset with
      | none => .error .truncatedSymbols
      | some r => do
        let used : Int := r.auxiliaries + 1
        let rest := externals file strings fuel (offset + used * recordSize) (count - used)
        if r.storageClass = 2 then
          let name ← r.text file strings
          return (name, r.value) :: (← rest)
        else rest

end Decompiler.Coff
