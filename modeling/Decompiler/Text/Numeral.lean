import Decompiler.Text.Blank
/-!
# Reading numerals

A numeral may stand between blanks and may have a sign. Its digits may be grouped by single
underscores. Hexadecimal numerals may have the radix mark `0x`; decimal digits of every script are
accepted, also in the radix mark. A decimal numeral has a largest length.
-/

namespace Decompiler.Text

/-- The zero of each script that has decimal digits; the other nine digits follow it. -/
def decimalZeros : List Nat :=
  [0x30, 0x660, 0x6f0, 0x7c0, 0x966, 0x9e6, 0xa66, 0xae6, 0xb66, 0xbe6, 0xc66, 0xce6, 0xd66, 0xde6,
   0xe50, 0xed0, 0xf20, 0x1040, 0x1090, 0x17e0, 0x1810, 0x1946, 0x19d0, 0x1a80, 0x1a90,
   0x1b50, 0x1bb0, 0x1c40, 0x1c50, 0xa620, 0xa8d0, 0xa900, 0xa9d0, 0xa9f0, 0xaa50, 0xabf0, 0xff10,
   0x104a0, 0x10d30, 0x11066, 0x110f0, 0x11136, 0x111d0, 0x112f0, 0x11450, 0x114d0, 0x11650,
     0x116c0, 0x11730,
   0x118e0, 0x11950, 0x11c50, 0x11d50, 0x11da0, 0x16a60, 0x16ac0, 0x16b50, 0x1d7ce, 0x1d7d8,
     0x1d7e2, 0x1d7ec,
   0x1d7f6, 0x1e140, 0x1e2f0, 0x1e950, 0x1fbf0]

/-- The value of a decimal digit. -/
def decimalDigit? (c : Char) : Option Nat :=
  (decimalZeros.find? (fun z => z ≤ c.toNat && c.toNat < z + 10)).map (fun z => c.toNat - z)

/-- A character of a numeral in ASCII: a decimal digit of any script is the digit of the same value,
and a blank is a space. What is ASCII already stays as it is. -/
def numeralChar (c : Char) : Char :=
  if c.toNat < 128 then c
  else
    match decimalDigit? c with
    | some d => Char.ofNat (48 + d)
    | none => if isBlank c then ' ' else c

/-- Whether a character may stand around a numeral: a space, or one of the control characters from
the tab to the carriage return. -/
def isPadding (c : Char) : Bool := c = ' ' || (9 ≤ c.toNat && c.toNat ≤ 13)

/-- The characters of a numeral in ASCII, without what stands around it. -/
def numeralChars (s : String) : List Char :=
  (((s.toList.map numeralChar).dropWhile isPadding).reverse.dropWhile isPadding).reverse

/-- The value of an ASCII digit in a radix up to sixteen. -/
def digit? (radix : Nat) (c : Char) : Option Nat :=
  let n := c.toNat
  let value :=
    if 48 ≤ n && n ≤ 57 then some (n - 48)
    else if 97 ≤ n && n ≤ 102 then some (n - 87)
    else if 65 ≤ n && n ≤ 70 then some (n - 55)
    else none
  value.filter (· < radix)

/-- Reads digits to the end; after an underscore a digit has to follow. -/
def digitsFrom (radix acc : Nat) : List Char → Option Nat
  | [] => some acc
  | '_' :: c :: rest =>
    match digit? radix c with
    | some d => digitsFrom radix (acc * radix + d) rest
    | none => none
  | c :: rest =>
    match digit? radix c with
    | some d => digitsFrom radix (acc * radix + d) rest
    | none => none

/-- A non-empty row of digits. -/
def natural? (radix : Nat) : List Char → Option Nat
  | [] => none
  | c :: rest =>
    match digit? radix c with
    | some d => digitsFrom radix d rest
    | none => none

/-- Drops the radix mark of a hexadecimal numeral, and one underscore after it. -/
def dropRadixMark : List Char → List Char
  | '0' :: 'x' :: '_' :: rest => rest
  | '0' :: 'X' :: '_' :: rest => rest
  | '0' :: 'x' :: rest => rest
  | '0' :: 'X' :: rest => rest
  | cs => cs

/-- Splits off an optional sign. -/
def splitSign : List Char → Bool × List Char
  | '-' :: rest => (true, rest)
  | '+' :: rest => (false, rest)
  | cs => (false, cs)

/-- How many digits a decimal numeral may have. -/
def maxDecimalDigits : Nat := 4300

/-- Reads a decimal numeral. Zeros in front count as digits, underscores do not. -/
def decimal? (s : String) : Option Int :=
  let (negative, cs) := splitSign (numeralChars s)
  if maxDecimalDigits < (cs.filter (· ≠ '_')).length then none
  else (natural? 10 cs).map fun n => if negative then -(n : Int) else n

/-- Reads a hexadecimal numeral. -/
def hexadecimal? (s : String) : Option Int :=
  let (negative, cs) := splitSign (numeralChars s)
  (natural? 16 (dropRadixMark cs)).map fun n => if negative then -(n : Int) else n

end Decompiler.Text
