import Decompiler.OrdMap
/-!
# Symbols

Names of addresses, looked up both ways. Several names may share an address, and then the address
shows the one that was defined last. A symbol imported by number has no name.
-/

namespace Decompiler

/-- The name of a symbol; there is none for an import by number. -/
abbrev SymbolName := Option String

/-- The symbols of an image: addresses by name and names by address. -/
structure Symbols where
  byName : OrdMap SymbolName Int
  byAddr : OrdMap Int SymbolName
  deriving DecidableEq, Repr

namespace Symbols

/-- No symbols. -/
def empty : Symbols := ⟨∅, ∅⟩

/-- Gives an address a name. -/
def define (s : Symbols) (name : SymbolName) (addr : Int) : Symbols :=
  ⟨s.byName.insert name addr, s.byAddr.insert addr name⟩

def isNamed (s : Symbols) (addr : Int) : Bool := s.byAddr.contains addr

end Symbols

end Decompiler
