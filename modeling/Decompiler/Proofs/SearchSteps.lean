import Decompiler.Flow.Loops
import Decompiler.Proofs.Discovery
/-!
# The search for loops, step by step

`Exploration.explore` nests four loops and a recursion and counts their rounds down. Here the same
search is a machine without a count: a stack of levels, each with a walk of its own, and one table
of waiting nodes that they share. A step takes one edge, lets the nodes go that have nothing to wait
for, makes one search for loops, goes down into a loop, records one, or returns. Where the search
goes through a set, a step may take any order.
-/

namespace Decompiler.Exploration

open List

/-! ## Levels and steps -/

/-- What a level does next: follow edges, having entered a node since it last looked for loops or
not; explore the loops that are ready; let nodes go on; record the loops it has found. -/
inductive Stage where
  | walking (moved : Bool)
  | exploring (ready : List Int)
  | settling
  | recording (left : List Int)

/-- After a search for loops, those that are ready are explored; if there is none, nodes may go
on. -/
def Stage.afterSearch : List Int → Stage
  | [] => .settling
  | ready => .exploring ready

/-- A level of the search: where it began, the starts of the loops around, what it does not look
beyond, its walk, the starts it has found, and what it does next. -/
structure Frame where
  entry : Int
  around : List Int
  region : Region
  stack : List (Option Int × Int)
  visited : List Int
  done : List Int
  starts : List Int
  stage : Stage

namespace Frame

/-- The walk of a level, with the nodes that wait. -/
def walk (f : Frame) (waiting : Waiting) : Walk := ⟨f.stack, f.visited, f.done, waiting⟩

/-- The level with another walk and stage. -/
def put (f : Frame) (w : Walk) (stage : Stage) : Frame :=
  { f with stack := w.stack, visited := w.visited, done := w.done, stage }

/-- A level that begins. -/
def begin (g : Graph) (entry : Int) (around : List Int) (region : Region)
    (visited done : List Int) : Frame where
  entry := entry
  around := around
  region := region
  stack := ((g.next entry).map fun n => (some entry, n)).reverse
  visited := visited.insert entry
  done := done
  starts := []
  stage := .walking false

/-- The level for a loop that was found from this one. -/
def inside (g : Graph) (f : Frame) (t : LoopTables) (addr : Int) : Frame :=
  begin g addr (f.around.insert addr) (some (t.own.getD ⟨f.entry, addr⟩ []))
    (f.visited.insert addr) f.done

end Frame

/-- A state of the search: the levels under way, innermost first, with the nodes that wait and the
tables; or a failure. The search has returned when no level is left. -/
inductive Config where
  | running (frames : List Frame) (waiting : Waiting) (t : LoopTables)
  | failed (e : Fault)

/-- The search of a whole graph. -/
def Config.start (g : Graph) : Config :=
  .running [Frame.begin g g.entry [] none [] []] ∅ LoopTables.empty

/-- The search has returned or failed. -/
def Config.Ended : Config → Prop
  | .running frames _ _ => frames = []
  | .failed _ => True

/-- The waiting nodes that have nothing to wait for go on, taken in some order. -/
def Releases (region : Region) (w w' : Walk) : Prop :=
  ∃ order : List (Int × List Int), order.Perm w.waiting.entries ∧ order.foldl (letGo region) w = w'

/-- One search for loops among the waiting nodes, tried in some order. It gives the loops that are
ready, in some order, the starts found, and the new state. -/
inductive Searches (g : Graph) (f : Frame) (waiting : Waiting) (t : LoopTables) :
    (ready found : List Int) → Waiting → LoopTables → Prop
  | search {order found opened ready : List Int} {waiting' : Waiting} {t' : LoopTables} :
    order.Perm waiting.keys →
    order.foldl (tryStart g f.entry f.around f.region) ([], t) = (found, t') →
    openLoops f.entry t' found waiting = (opened, waiting') →
    ready.Perm opened →
    Searches g f waiting t ready found (dropOutside f.region waiting') t'

/-- One step of the search, in its innermost level. -/
inductive Step (g : Graph) : Config → Config → Prop
  /-- An edge arrives at a node that waits. -/
  | wait {f fs waiting t moved source addr rest w} :
    f.stage = .walking moved → f.stack = (source, addr) :: rest →
    mustWait g f.region { f.walk waiting with stack := rest } addr = true →
    arrive g { f.walk waiting with stack := rest } source addr = .ok w →
    Step g (.running (f :: fs) waiting t) (.running (f.put w (.walking moved) :: fs) w.waiting t)
  /-- An edge arrives that is not waited for. -/
  | strand {f fs waiting t moved source addr rest e} :
    f.stage = .walking moved → f.stack = (source, addr) :: rest →
    mustWait g f.region { f.walk waiting with stack := rest } addr = true →
    arrive g { f.walk waiting with stack := rest } source addr = .error e →
    Step g (.running (f :: fs) waiting t) (.failed e)
  /-- A node is entered. -/
  | enter {f fs waiting t moved source addr rest entered w} :
    f.stage = .walking moved → f.stack = (source, addr) :: rest →
    mustWait g f.region { f.walk waiting with stack := rest } addr = false →
    enter g f.around { f.walk waiting with stack := rest } addr = (entered, w) →
    Step g (.running (f :: fs) waiting t)
      (.running (f.put w (.walking (moved || entered)) :: fs) w.waiting t)
  /-- No edge is left, and nodes were entered: others may go on by that. -/
  | pause {f fs waiting t w} :
    f.stage = .walking true → f.stack = [] → Releases f.region (f.walk waiting) w →
    Step g (.running (f :: fs) waiting t) (.running (f.put w (.walking false) :: fs) w.waiting t)
  /-- Nothing moves, or the loops that were ready are explored: loops are looked for. -/
  | search {f fs waiting t ready found waiting' t'} :
    (f.stage = .walking false ∧ f.stack = []) ∨ f.stage = .exploring [] →
    Searches g f waiting t ready found waiting' t' →
    Step g (.running (f :: fs) waiting t)
      (.running ({ f with starts := f.starts ++ found, stage := .afterSearch ready } :: fs)
        waiting' t')
  /-- A loop that is ready is explored on a level of its own. -/
  | descend {f fs waiting t addr rest} :
    f.stage = .exploring (addr :: rest) →
    Step g (.running (f :: fs) waiting t)
      (.running (f.inside g t addr :: { f with stage := .exploring rest } :: fs) waiting t)
  /-- Nodes go on, and the level with them. -/
  | resume {f fs waiting t w} :
    f.stage = .settling → Releases f.region (f.walk waiting) w → w.stack ≠ [] →
    Step g (.running (f :: fs) waiting t) (.running (f.put w (.walking false) :: fs) w.waiting t)
  /-- No node goes on, and what was found is to be recorded. -/
  | settle {f fs waiting t w left} :
    f.stage = .settling → Releases f.region (f.walk waiting) w → w.stack = [] →
    left.Perm (distinct f.starts) →
    Step g (.running (f :: fs) waiting t) (.running (f.put w (.recording left) :: fs) w.waiting t)
  /-- A loop is recorded. -/
  | record {f fs waiting t start left t'} :
    f.stage = .recording (start :: left) → recordLoop f.entry t start = .ok t' →
    Step g (.running (f :: fs) waiting t)
      (.running ({ f with stage := .recording left } :: fs) waiting t')
  /-- A loop inside the one to record is not recorded yet. -/
  | misrecord {f fs waiting t start left e} :
    f.stage = .recording (start :: left) → recordLoop f.entry t start = .error e →
    Step g (.running (f :: fs) waiting t) (.failed e)
  /-- The level returns. -/
  | leave {f fs waiting t} :
    f.stage = .recording [] → Step g (.running (f :: fs) waiting t) (.running fs waiting t)

/-- The states that steps lead to. -/
abbrev Reaches (g : Graph) : Config → Config → Prop := Relation.ReflTransGen (Step g)

variable {g : Graph}

/-- As long as a level is under way there is a step. -/
theorem exists_step (f : Frame) (fs : List Frame) (waiting : Waiting) (t : LoopTables) :
    ∃ c, Step g (.running (f :: fs) waiting t) c := by
  have hsearch : (f.stage = .walking false ∧ f.stack = []) ∨ f.stage = .exploring [] →
      ∃ c, Step g (.running (f :: fs) waiting t) c :=
    fun h => ⟨_, .search h (.search (Perm.refl _) rfl rfl (Perm.refl _))⟩
  cases hstage : f.stage with
  | walking moved =>
    cases hstack : f.stack with
    | nil =>
      cases moved with
      | true => exact ⟨_, .pause hstage hstack ⟨_, Perm.refl _, rfl⟩⟩
      | false => exact hsearch (.inl ⟨hstage, hstack⟩)
    | cons e rest =>
      cases hwait : mustWait g f.region { f.walk waiting with stack := rest } e.2 with
      | false => exact ⟨_, .enter hstage hstack hwait rfl⟩
      | true =>
        cases harrive : arrive g { f.walk waiting with stack := rest } e.1 e.2 with
        | ok w => exact ⟨_, .wait hstage hstack hwait harrive⟩
        | error fault => exact ⟨_, .strand hstage hstack hwait harrive⟩
  | exploring ready =>
    cases ready with
    | nil => exact hsearch (.inr hstage)
    | cons addr rest => exact ⟨_, .descend hstage⟩
  | settling =>
    by_cases hstack : (f.walk waiting |> release f.region).stack = []
    · exact ⟨_, .settle hstage ⟨_, Perm.refl _, rfl⟩ hstack (Perm.refl _)⟩
    · exact ⟨_, .resume hstage ⟨_, Perm.refl _, rfl⟩ hstack⟩
  | recording left =>
    cases left with
    | nil => exact ⟨_, .leave hstage⟩
    | cons start left =>
      cases hrecord : recordLoop f.entry t start with
      | ok t' => exact ⟨_, .record hstage hrecord⟩
      | error e => exact ⟨_, .misrecord hstage hrecord⟩

end Decompiler.Exploration
