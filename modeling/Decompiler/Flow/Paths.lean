import Decompiler.OrdMap
/-!
# Paths in a graph

Searches over the successor lists of a graph: whether one address can be reached from another, and
which addresses lie on paths between two. Both are depth-first and visit each address once.
-/

namespace Decompiler

/-- Successors by address. An address without an entry ends every path. -/
abbrev Edges := OrdMap Int (List Int)

/-- The elements of a list, each once. -/
def distinct {α : Type} [DecidableEq α] (l : List α) : List α := l.foldr List.insert []

/-- The elements of two lists together; those of the first keep their place. -/
def unite {α : Type} [DecidableEq α] (a b : List α) : List α := b.foldr List.insert a

/-! ## Reachability -/

/-- Searches for `goal` from an address; `seen` are the addresses that have been tried. Gives
whether it was found and the addresses tried by then. Each step down adds to `seen`, so `fuel` need
not exceed the number of entries by more than one. -/
def Edges.reachFrom (edges : Edges) (goal : Int) : (fuel : Nat) → Int → List Int → Bool × List Int
  | 0, _, seen => (false, seen)
  | fuel + 1, addr, seen =>
    if addr = goal then (true, seen)
    else if addr ∈ seen then (false, seen)
    else
      (edges.getD addr []).foldl
        (fun acc next => if acc.1 then acc else reachFrom edges goal fuel next acc.2)
        (false, addr :: seen)

/-- Whether there is a path, possibly empty, from one address to another. -/
def Edges.reaches (edges : Edges) (source goal : Int) : Bool :=
  (edges.reachFrom goal (edges.size + 2) source []).1

/-- Answers to reachability questions asked before. -/
abbrev PathMemo := OrdMap (Int × Int) Bool

/-- Whether there is a path from one address to another, answered from memory if it was asked
before. -/
def Edges.reachesMemo (edges : Edges) (memo : PathMemo) (source goal : Int) : Bool × PathMemo :=
  match memo.get? (source, goal) with
  | some answer => (answer, memo)
  | none =>
    let answer := edges.reaches source goal
    (answer, memo.insert (source, goal) answer)

/-! ## Addresses on paths -/

/-- A search for paths: the addresses tried, and those found to lie on a path to the goal. -/
structure PathSearch where
  seen : List Int
  onPath : List Int

/-- Searches from an address for paths to `goal` that do not go on from a `barred` address. An
address lies on a path if one of its successors does when the search comes back from it. -/
def Edges.pathsFrom (edges : Edges) (goal : Int) (barred : List Int) :
    (fuel : Nat) → (first : Bool) → Int → PathSearch → PathSearch
  | 0, _, _, s => s
  | fuel + 1, first, addr, s =>
    if addr = goal && !first then { s with onPath := s.onPath.insert addr }
    else if addr ∈ s.seen then s
    else
      let s := { s with seen := addr :: s.seen }
      if addr ∈ barred then s
      else
        (edges.getD addr []).foldl
          (fun s next =>
            let s := pathsFrom edges goal barred fuel false next s
            if next ∈ s.onPath then { s with onPath := s.onPath.insert addr } else s)
          s

/-- The addresses on paths of at least one step from `source` to `goal` that do not go on from a
barred address. -/
def Edges.paths (edges : Edges) (source goal : Int) (barred : List Int) : List Int :=
  (edges.pathsFrom goal barred (edges.size + 2) true source ⟨[], []⟩).onPath

end Decompiler
