import Decompiler.OrdMap
/-!
# What an analysis has marked

Labels and colours of addresses, local variables, and the comparisons that are shown inside
conditions. A fresh analysis starts without marks.
-/

namespace Decompiler

/-- The local variables of a function: by their distance from the frame register, names and sizes in
bytes. -/
structure Locals where
  index : OrdMap Int Nat
  names : List String
  sizes : List Int
  /-- The number in the name of the next variable. -/
  next : Nat
  deriving DecidableEq, Repr

namespace Locals

/-- No variables. -/
def empty : Locals := ⟨∅, [], [], 1⟩

/-- The name of the variable at a distance. -/
def name? (l : Locals) (disp : Int) : Option String := (l.index.get? disp).bind (l.names[·]?)

/-- Makes the variable at a distance known, with a new name if it is new. -/
def declare (l : Locals) (disp size : Int) : Locals :=
  if l.index.contains disp then l
  else
    { index := l.index.insert disp l.names.length
      names := l.names ++ ["var" ++ toString l.next]
      sizes := l.sizes ++ [size]
      next := l.next + 1 }

/-- Adds to the name of the variable at a distance. -/
def rename (l : Locals) (disp : Int) (suffix : String) : Locals :=
  match l.index.get? disp with
  | some k => { l with names := l.names.modify k (· ++ suffix) }
  | none => l

end Locals

/-- The marks of an analysis. -/
structure Marks where
  /-- The address at which the analysis starts. -/
  entry : Int
  labels : OrdMap Int String
  /-- Colours of addresses, in the order in which they were given out. -/
  tints : OrdMap Int Int
  /-- The colour given out last. -/
  lastTint : Int
  locals : Locals
  /-- Addresses of comparisons that are shown in a condition. -/
  fused : List Int
  deriving DecidableEq, Repr

namespace Marks

/-- No marks. -/
def empty : Marks := ⟨0, ∅, ∅, 112, Locals.empty, []⟩

/-- Gives an address a colour of its own, the next of the palette, unless it has one. -/
def tint (m : Marks) (addr : Int) : Marks :=
  if m.tints.contains addr then m
  else
    let color := if m.lastTint = 230 then 112 else m.lastTint + 2
    { m with lastTint := color, tints := m.tints.insert addr color }

end Marks

end Decompiler
