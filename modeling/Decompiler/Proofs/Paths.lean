import Decompiler.Flow.Paths
import Decompiler.Proofs.OrdMap
/-!
# The search for paths, step by step

A search from an address does one of four things (`pathsFrom_cases`), and with an edge it follows
one of two (`follow_cases`). What a whole search finds is derived from these.
-/

namespace Decompiler

namespace PathSearch

variable {edges : Edges} {goal : Int} {barred : List Int}

/-- The search with an address put on a path. -/
def put (s : PathSearch) (addr : Int) : PathSearch := { s with onPath := s.onPath.insert addr }

/-- One edge: the search from its end, after which its source is put on a path if the end is. -/
def follow (search : Int → PathSearch → PathSearch) (addr : Int) (s : PathSearch) (next : Int) :
    PathSearch :=
  let s := search next s
  if next ∈ s.onPath then { s with onPath := s.onPath.insert addr } else s

theorem pathsFrom_of_fresh {fuel : Nat} {first : Bool} {addr : Int} {s : PathSearch}
    (hgoal : (addr = goal && !first) = false) (hseen : addr ∉ s.seen) (hbarred : addr ∉ barred) :
    edges.pathsFrom goal barred (fuel + 1) first addr s =
      (edges.getD addr []).foldl (follow (edges.pathsFrom goal barred fuel false) addr)
        { s with seen := addr :: s.seen } := by
  rw [Edges.pathsFrom, hgoal]
  simp only [Bool.false_eq_true, if_false, hseen, hbarred]
  rfl

/-- What a search from an address does: it puts the goal on a path, leaves an address that was tried
before or is barred, or follows the edges from it. -/
theorem pathsFrom_cases (edges : Edges) (goal : Int) (barred : List Int) (fuel : Nat) (first : Bool)
    (addr : Int) (s : PathSearch) :
    (addr = goal ∧ first = false ∧
      edges.pathsFrom goal barred (fuel + 1) first addr s = s.put addr) ∨
      ((addr = goal && !first) = false ∧ addr ∈ s.seen ∧
        edges.pathsFrom goal barred (fuel + 1) first addr s = s) ∨
      ((addr = goal && !first) = false ∧ addr ∉ s.seen ∧ addr ∈ barred ∧
        edges.pathsFrom goal barred (fuel + 1) first addr s = { s with seen := addr :: s.seen }) ∨
      ((addr = goal && !first) = false ∧ addr ∉ s.seen ∧ addr ∉ barred ∧
        edges.pathsFrom goal barred (fuel + 1) first addr s =
          (edges.getD addr []).foldl (follow (edges.pathsFrom goal barred fuel false) addr)
            { s with seen := addr :: s.seen }) := by
  by_cases hgoal : (addr = goal && !first) = true
  · obtain ⟨rfl, rfl⟩ : addr = goal ∧ first = false := by simpa using hgoal
    exact .inl ⟨rfl, rfl, by rw [Edges.pathsFrom, if_pos hgoal]; rfl⟩
  · have hgoal' := Bool.eq_false_iff.mpr hgoal
    refine .inr ?_
    by_cases hseen : addr ∈ s.seen
    · exact .inl ⟨hgoal', hseen, by rw [Edges.pathsFrom, if_neg hgoal, if_pos hseen]⟩
    · by_cases hbarred : addr ∈ barred
      · refine .inr (.inl ⟨hgoal', hseen, hbarred, ?_⟩)
        rw [Edges.pathsFrom, if_neg hgoal, if_neg hseen]
        simp only [hbarred, if_true]
      · exact .inr (.inr ⟨hgoal', hseen, hbarred, pathsFrom_of_fresh hgoal' hseen hbarred⟩)

/-- Following an edge leaves what the search from its end gives, or puts the source on a path as
well. -/
theorem follow_cases (search : Int → PathSearch → PathSearch) (addr : Int) (s : PathSearch)
    (next : Int) :
    (next ∈ (search next s).onPath ∧ follow search addr s next = (search next s).put addr) ∨
      (next ∉ (search next s).onPath ∧ follow search addr s next = search next s) := by
  by_cases hon : next ∈ (search next s).onPath
  · exact .inl ⟨hon, if_pos hon⟩
  · exact .inr ⟨hon, if_neg hon⟩

end PathSearch

namespace Edges

open PathSearch

variable {edges : Edges} {start : Int} {barred : List Int}

/-- A barred start is on no path. -/
theorem paths_of_mem_barred (h : start ∈ barred) : edges.paths start start barred = [] := by
  simp [paths, pathsFrom, h]

theorem paths_of_not_mem_barred (h : start ∉ barred) :
    edges.paths start start barred =
      ((edges.getD start []).foldl (follow (edges.pathsFrom start barred (edges.size + 1) false)
        start) ⟨[start], []⟩).onPath := by
  rw [paths, pathsFrom_of_fresh (by simp) List.not_mem_nil h]

end Edges

end Decompiler
