import Decompiler.Text.Hex
/-!
# Text of bytes

Strings found in an image are shown one byte at a time. The printable ASCII characters stand for
themselves, the usual control characters have their short escapes, and every other byte is written
in hexadecimal.
-/

namespace Decompiler.Text

/-- Bytes that may be part of a text: the visible ASCII characters, blank, tab and the line ends. -/
def isPrintable (b : Nat) : Bool :=
  (32 ≤ b && b ≤ 126) || b = 9 || b = 10 || b = 13

/-- The printable bytes in ascending order. -/
def printableBytes : List Nat := (List.range 256).filter isPrintable

/-- How a byte is shown inside a quoted text. -/
def byteText (b : Nat) : String :=
  if b = 0 then "\\0"
  else if b = 9 then "\\t"
  else if b = 10 then "\\n"
  else if b = 13 then "\\r"
  else if 32 ≤ b && b ≤ 126 then String.singleton (Char.ofNat b)
  else "\\x" ++ zeroPad 2 (hexDigits b)

/-- How a code is shown; a negative code counts down from the last byte, as a signed byte does. -/
def codeText? (n : Int) : Option String :=
  if 0 ≤ n && n < 256 then some (byteText n.toNat)
  else if -256 ≤ n && n < 0 then some (byteText (n + 256).toNat)
  else none

end Decompiler.Text
