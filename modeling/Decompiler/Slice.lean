/-!
# Positions counted from either end

A position in a list that is negative counts from the end, so that `-1` is the last element. A slice
whose ends lie outside of the list is cut to it.
-/

namespace Decompiler

variable {α : Type}

/-- The element at a position; a negative position counts from the end. -/
def position? (l : List α) (k : Int) : Option α :=
  if 0 ≤ k then l[k.toNat]?
  else if 0 ≤ l.length + k then l[(l.length + k).toNat]?
  else none

/-- A slice bound as a place in a list of the given length. -/
def sliceBound (length : Nat) (k : Int) : Nat :=
  if 0 ≤ k then min k.toNat length else (length + k).toNat

/-- The elements from `start` up to `stop`, which is left out. -/
def slice (l : List α) (start stop : Int) : List α :=
  let a := sliceBound l.length start
  let b := sliceBound l.length stop
  (l.drop a).take (b - a)

/-- The first place from `start` on that holds an element, or `-1`. -/
def indexFrom [BEq α] (l : List α) (a : α) (start : Int) : Int :=
  let from_ := sliceBound l.length start
  match (l.drop from_).findIdx? (· == a) with
  | some k => ((from_ + k : Nat) : Int)
  | none => -1

end Decompiler
