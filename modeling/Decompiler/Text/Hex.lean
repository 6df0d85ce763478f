/-!
# Hexadecimal text

Addresses and values are shown in lower-case hexadecimal. A negative number has its sign in front of
the radix mark, so that minus one is `-0x1`.
-/

namespace Decompiler.Text

/-- The lower-case hexadecimal digits of a number, without leading zeros. -/
def hexDigits (n : Nat) : String := String.ofList (Nat.toDigits 16 n)

/-- A text filled up on the left with zeros to a number of characters. -/
def zeroPad (width : Nat) (s : String) : String :=
  String.ofList (List.replicate (width - s.length) '0') ++ s

/-- Signed hexadecimal digits, at least `width` of them. -/
def hexSigned (width : Nat) (n : Int) : String :=
  if n < 0 then "-" ++ zeroPad width (hexDigits n.natAbs) else zeroPad width (hexDigits n.natAbs)

/-- An address or value with its radix mark: `0x1f`, `-0x1`. -/
def hex (n : Int) : String :=
  if n < 0 then "-0x" ++ hexDigits n.natAbs else "0x" ++ hexDigits n.natAbs

end Decompiler.Text
