/-!
# Fixed-point text of exact numbers

A quotient, or a binary64 number given by its bit pattern, is written with a fixed number of places
after the point. The value is exact and is rounded once, a half going to the even neighbour.
-/

namespace Decompiler.Text

/-- The quotient rounded to the nearest whole number, a half going to the even neighbour. -/
def roundDiv (num den : Nat) : Nat :=
  let q := num / den
  let r := num % den
  if 2 * r < den then q
  else if den < 2 * r then q + 1
  else if q % 2 = 0 then q else q + 1

/-- A whole number of units of `10 ^ -places`, written out. -/
def pointed (places : Nat) (units : Nat) : String :=
  let one := Nat.pow 10 places
  let digits := (toString (units % one)).toList
  toString (units / one) ++ "." ++
    String.ofList (List.replicate (places - digits.length) '0' ++ digits)

/-- The quotient with a fixed number of places. -/
def fixedRatio (places num den : Nat) : String :=
  pointed places (roundDiv (num * Nat.pow 10 places) den)

/-! ## Bit patterns of binary64 numbers -/

def isNegative (bits : UInt64) : Bool := bits.toNat >>> 63 ≠ 0

/-- The exponent field. -/
def exponentField (bits : UInt64) : Nat := (bits.toNat >>> 52) % 2048

/-- The fraction field. -/
def fractionField (bits : UInt64) : Nat := bits.toNat % (1 <<< 52)

def isInfinite (bits : UInt64) : Bool := exponentField bits = 2047 && fractionField bits = 0

/-- The exact magnitude of a finite number, as a quotient. -/
def magnitude? (bits : UInt64) : Option (Nat × Nat) :=
  let exponent := exponentField bits
  if exponent = 2047 then none
  else
    let significand := if exponent = 0 then fractionField bits else (1 <<< 52) + fractionField bits
    let power := if exponent = 0 then 1 else exponent
    if 1075 ≤ power then some (significand <<< (power - 1075), 1)
    else some (significand, 1 <<< (1075 - power))

/-- The number with a fixed number of places. -/
def fixedBinary (places : Nat) (bits : UInt64) : String :=
  let sign := if isNegative bits then "-" else ""
  match magnitude? bits with
  | some (num, den) => sign ++ fixedRatio places num den
  | none => if isInfinite bits then sign ++ "inf" else "nan"

end Decompiler.Text
