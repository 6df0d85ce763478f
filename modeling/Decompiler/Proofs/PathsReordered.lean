import Decompiler.Proofs.WaysBack
/-!
# The addresses on paths and the order of edges

The search for the addresses on paths from one address to another visits each address once, and
decides whether it lies on a path when all its edges have been followed. What it does not see then
is a way over addresses that are still under search. So an address can be missed where every way
from it to the goal leads back into the way on which the search has come to it (`Edges.Trapped`),
and whether that happens depends on the order of the edges (`Edges.paths_depend_on_order`).

Without such a trap nothing is missed in any order, and with one something is missed in some order.
Whether there is any path at all is found in every order (`Edges.paths_reordered`).
-/

namespace Decompiler

open List OrdMap

variable {a x last b : Int} {way rest : List Int} {search : Int → PathSearch → PathSearch}

namespace Edges

variable {edges edges' edges'' : Edges} {source goal : Int} {barred : List Int}

/-! ## Ways to the goal -/

/-- The same edges, with those from each address in some other order. -/
def Reordered (edges edges' : Edges) : Prop := ∀ a, (edges.getD a []).Perm (edges'.getD a [])

/-- From an address on there is a way to the goal. -/
def Ahead (edges : Edges) (goal : Int) (barred : List Int) (a : Int) : Prop :=
  ∃ z, Relation.ReflTransGen (edges.Onward goal barred) a z ∧ edges.Open barred z goal

/-- An address lies on a way from the source to the goal. -/
def OnWay (edges : Edges) (source goal : Int) (barred : List Int) (x : Int) : Prop :=
  (x = goal ∧ edges.Ahead goal barred source) ∨
    (Relation.ReflTransGen (edges.Onward goal barred) source x ∧ edges.Ahead goal barred x)

theorem Ahead.head (hedge : edges.Onward goal barred a b) (h : edges.Ahead goal barred b) :
    edges.Ahead goal barred a := by
  obtain ⟨z, hway, hlast⟩ := h
  exact ⟨z, .head hedge hway, hlast⟩

/-- A way to the goal begins with an edge to the goal or to what has the goal ahead. -/
theorem Ahead.exists_edge (h : edges.Ahead goal barred a) :
    ∃ y, edges.Open barred a y ∧ (y ≠ goal → edges.Ahead goal barred y) := by
  obtain ⟨z, hway, hlast⟩ := h
  rcases Relation.ReflTransGen.cases_head hway with rfl | ⟨b, hedge, hrest⟩
  · exact ⟨goal, hlast, fun hne => absurd rfl hne⟩
  · exact ⟨b, hedge.1, fun _ => ⟨z, hrest, hlast⟩⟩

theorem OnWay.ahead (h : edges.OnWay source goal barred x) : edges.Ahead goal barred source := by
  rcases h with ⟨-, h⟩ | ⟨hway, z, hrest, hlast⟩
  · exact h
  · exact ⟨z, hway.trans hrest, hlast⟩

/-- A way on which no address stands twice, its last address first. -/
inductive Descends (edges : Edges) (source goal : Int) (barred : List Int) : List Int → Prop
  | start : Descends edges source goal barred [source]
  | step {a b : Int} {rest : List Int} : Descends edges source goal barred (a :: rest) →
    edges.Onward goal barred a b → b ∉ a :: rest →
    Descends edges source goal barred (b :: a :: rest)

theorem Descends.source_mem (h : edges.Descends source goal barred way) : source ∈ way := by
  induction h with
  | start => exact mem_singleton_self source
  | step _ _ _ ih => exact .tail _ ih

/-- The last address of a way stands there once, and it is the goal only where the way begins. -/
theorem Descends.fresh (h : edges.Descends source goal barred (last :: rest)) :
    last ∉ rest ∧ (last = goal && !rest.isEmpty) = false := by
  cases h with
  | start => exact ⟨not_mem_nil, by simp⟩
  | step _ hedge hnew => exact ⟨hnew, by simp [hedge.2]⟩

/-- Every address of a way leads to its last one. -/
theorem Descends.leads_to_last (h : edges.Descends source goal barred (last :: rest)) :
    ∀ x ∈ last :: rest, Relation.ReflTransGen (edges.Onward goal barred) x last := by
  generalize hway : last :: rest = way at h
  induction h generalizing last rest with
  | start =>
    obtain ⟨rfl, -⟩ := cons.inj hway
    exact fun x hx => mem_singleton.mp hx ▸ .refl
  | step _ hedge _ ih =>
    obtain ⟨rfl, -⟩ := cons.inj hway
    exact forall_mem_cons.mpr ⟨.refl, fun x hx => (ih rfl x hx).tail hedge⟩

/-- At the end of a way from the source, every way on to the goal leads back into the way itself. -/
def Trapped (edges : Edges) (source goal : Int) (barred : List Int) : Prop :=
  ∃ last rest, edges.Descends source goal barred (last :: rest) ∧ edges.Ahead goal barred last ∧
    ∀ y ∈ edges.getD last [], y ≠ goal ∧ (edges.Ahead goal barred y → y ∈ last :: rest)

/-! ## Other orders -/

namespace Reordered

section

variable (h : edges.Reordered edges')
include h

theorem symm : edges'.Reordered edges := fun a => (h a).symm

theorem trans (h' : edges'.Reordered edges'') : edges.Reordered edges'' :=
  fun a => (h a).trans (h' a)

theorem onward_eq (goal : Int) (barred : List Int) :
    edges'.Onward goal barred = edges.Onward goal barred := by
  funext a b
  simp only [Onward, Open, (h a).mem_iff]

theorem ahead_iff : edges'.Ahead goal barred a ↔ edges.Ahead goal barred a := by
  unfold Ahead Open
  rw [h.onward_eq]
  exact exists_congr fun z => and_congr_right fun _ => and_congr_left fun _ => (h z).symm.mem_iff

theorem onWay_iff : edges'.OnWay source goal barred x ↔ edges.OnWay source goal barred x := by
  simp only [OnWay, h.onward_eq, h.ahead_iff]

theorem descends (hway : edges.Descends source goal barred way) :
    edges'.Descends source goal barred way := by
  induction hway with
  | start => exact .start
  | step _ hedge hnew ih => exact .step ih ((h.onward_eq goal barred).symm ▸ hedge) hnew

theorem trapped (htrap : edges.Trapped source goal barred) : edges'.Trapped source goal barred := by
  obtain ⟨last, rest, hway, hahead, hback⟩ := htrap
  refine ⟨last, rest, h.descends hway, h.ahead_iff.mpr hahead, fun y hy => ?_⟩
  rw [h.ahead_iff]
  exact hback y ((h last).mem_iff.mpr hy)

end

end Reordered

end Edges

namespace PathSearch

open Edges

variable {edges : Edges} {source goal : Int} {barred : List Int} {s : PathSearch} {first : Bool}
  {addr : Int} {stack : List Int}

/-! ## Only what lies on a way is found -/

/-- Whatever was tried has been reached, and whatever is on a path lies on a way to the goal. -/
structure Truthful (edges : Edges) (source goal : Int) (barred : List Int) (s : PathSearch) :
    Prop where
  reached : ∀ x ∈ s.seen, Relation.ReflTransGen (edges.Onward goal barred) source x
  onWay : ∀ x ∈ s.onPath, edges.OnWay source goal barred x

/-- Where a search from an address begins: at the source, or at the end of an edge from what has
been reached. -/
def Entered (edges : Edges) (source goal : Int) (barred : List Int) (first : Bool) (addr : Int) :
    Prop :=
  (first = true ∧ addr = source) ∨
    (first = false ∧ ∃ p, Relation.ReflTransGen (edges.Onward goal barred) source p ∧
      edges.Open barred p addr)

theorem Entered.reached (h : Entered edges source goal barred first addr)
    (hgoal : (addr = goal && !first) = false) :
    Relation.ReflTransGen (edges.Onward goal barred) source addr := by
  rcases h with ⟨-, rfl⟩ | ⟨rfl, p, hway, hedge⟩
  · exact .refl
  · exact hway.tail ⟨hedge, by simpa using hgoal⟩

variable {x : Int}

theorem Truthful.put (h : s.Truthful edges source goal barred)
    (hx : edges.OnWay source goal barred x) : (s.put x).Truthful edges source goal barred := by
  refine ⟨h.reached, fun y hy => ?_⟩
  rcases mem_found_put.mp hy with rfl | hy
  · exact hx
  · exact h.onWay y hy

theorem Truthful.see (h : s.Truthful edges source goal barred)
    (haddr : Relation.ReflTransGen (edges.Onward goal barred) source addr) :
    Truthful edges source goal barred { s with seen := addr :: s.seen } :=
  ⟨forall_mem_cons.mpr ⟨haddr, h.reached⟩, h.onWay⟩

/-- The source of an edge to what lies on a way lies on one. -/
theorem onWay_of_edge {next : Int}
    (haddr : Relation.ReflTransGen (edges.Onward goal barred) source addr)
    (hedge : edges.Open barred addr next) (hnext : edges.OnWay source goal barred next) :
    edges.OnWay source goal barred addr := by
  refine .inr ⟨haddr, ?_⟩
  by_cases hgoal : next = goal
  · exact ⟨addr, .refl, hgoal ▸ hedge⟩
  · rcases hnext with ⟨heq, -⟩ | ⟨-, hahead⟩
    · exact absurd heq hgoal
    · exact hahead.head ⟨hedge, hgoal⟩

theorem pathsFrom_truthful : ∀ (fuel : Nat) (first : Bool) (addr : Int) (s : PathSearch),
    Entered edges source goal barred first addr → s.Truthful edges source goal barred →
    (edges.pathsFrom goal barred fuel first addr s).Truthful edges source goal barred := by
  intro fuel
  induction fuel with
  | zero => intro first addr s _ hs; exact hs
  | succ fuel ih =>
    intro first addr s hentered hs
    rcases pathsFrom_cases edges goal barred fuel first addr s with
      ⟨rfl, rfl, heq⟩ | ⟨-, -, heq⟩ | ⟨hgoal, -, -, heq⟩ | ⟨hgoal, -, hopen, heq⟩
    · rw [heq]
      rcases hentered with ⟨hfirst, -⟩ | ⟨-, hedge⟩
      · cases hfirst
      · exact hs.put (.inl ⟨rfl, hedge⟩)
    · rwa [heq]
    · rw [heq]
      exact hs.see (hentered.reached hgoal)
    · rw [heq]
      have haddr := hentered.reached hgoal
      refine foldlRecOn (motive := Truthful edges source goal barred) _ _ (hs.see haddr)
        fun s' hs' next hnext => ?_
      have hedge : edges.Open barred addr next := ⟨hnext, hopen⟩
      have hsearch := ih false next s' (.inr ⟨rfl, addr, haddr, hedge⟩) hs'
      rcases follow_cases (edges.pathsFrom goal barred fuel false) addr s' next with ⟨hon,
        heq⟩ | ⟨-, heq⟩
      · rw [heq]
        exact hsearch.put (onWay_of_edge haddr hedge (hsearch.onWay next hon))
      · rwa [heq]

/-! ## Without a trap nothing is missed -/

/-- Of what has been tried, all that has the goal ahead is on a path, but for what is still under
search. -/
def Settled (edges : Edges) (goal : Int) (barred stack : List Int) (s : PathSearch) : Prop :=
  ∀ z ∈ s.seen, z ∉ stack → edges.Ahead goal barred z → z ∈ s.onPath

theorem Settled.see (h : s.Settled edges goal barred stack)
    (haddr : ¬ edges.Ahead goal barred addr) :
    Settled edges goal barred stack { s with seen := addr :: s.seen } :=
  forall_mem_cons.mpr ⟨fun _ hahead => absurd hahead haddr, h⟩

theorem Settled.put (h : s.Settled edges goal barred stack) (x : Int) :
    (s.put x).Settled edges goal barred stack :=
  fun z hz hout hahead => mem_found_put.mpr (.inr (h z hz hout hahead))

/-- The way on which a search has come to an address: nothing at the source, otherwise a way to
where an edge to the address begins. -/
def ComesBy (edges : Edges) (source goal : Int) (barred : List Int) (first : Bool) (addr : Int)
    (stack : List Int) : Prop :=
  (first = true ∧ addr = source ∧ stack = []) ∨
    (first = false ∧ ∃ a rest, stack = a :: rest ∧ edges.Descends source goal barred (a :: rest) ∧
      edges.Open barred a addr)

theorem ComesBy.descends (h : ComesBy edges source goal barred first addr stack)
    (hgoal : (addr = goal && !first) = false) (hnew : addr ∉ stack) :
    edges.Descends source goal barred (addr :: stack) := by
  rcases h with ⟨-, rfl, rfl⟩ | ⟨rfl, a, rest, rfl, hway, hedge⟩
  · exact .start
  · exact .step hway ⟨hedge, by simpa using hgoal⟩ hnew

/-- The edges from an address are followed, with the search from each end settled. If one of them
leads to the goal, or to what has the goal ahead and is not under search, the address is put on a
path. -/
theorem foldl_follow_settled (bound : Nat)
    (harrives : ∀ next s, edges.untried s.seen < bound →
      Arrives edges goal barred false next s (search next s))
    (hsearch : ∀ next ∈ edges.getD addr [], ∀ s, edges.untried s.seen < bound → stack ⊆ s.seen →
      Settled edges goal barred stack s → Settled edges goal barred stack (search next s)) :
    ∀ (l : List Int) (s : PathSearch), l ⊆ edges.getD addr [] → edges.untried s.seen < bound →
      stack ⊆ s.seen → Settled edges goal barred stack s →
      Settled edges goal barred stack (l.foldl (follow search addr) s) ∧
        ∀ y ∈ l, (y = goal ∨ (edges.Ahead goal barred y ∧ y ∉ stack)) →
          addr ∈ (l.foldl (follow search addr) s).onPath := by
  intro l
  induction l with
  | nil => intro s _ _ _ hs; exact ⟨hs, fun y hy => by cases hy⟩
  | cons next rest ih =>
    intro s hl hbound hstack hs
    obtain ⟨hnext, hrest⟩ := cons_subset.mp hl
    have harrive := harrives next s hbound
    have hsettled := hsearch next hnext s hbound hstack hs
    obtain ⟨hcovers, -⟩ := follow_covers addr harrive
    have hsettled' : Settled edges goal barred stack (follow search addr s next) := by
      rcases follow_cases search addr s next with ⟨-, heq⟩ | ⟨-, heq⟩
      · rw [heq]
        exact hsettled.put addr
      · rwa [heq]
    have hfound : (next = goal ∨ (edges.Ahead goal barred next ∧ next ∉ stack)) →
        addr ∈ (follow search addr s next).onPath := by
      intro hcase
      have hon : next ∈ (search next s).onPath := by
        by_cases hgoal : next = goal
        · exact hgoal ▸ harrive.found (by simp [hgoal])
        · obtain ⟨hahead, hout⟩ := hcase.resolve_left hgoal
          exact hsettled next (harrive.tried (by simp [hgoal])) hout hahead
      rcases follow_cases search addr s next with ⟨-, heq⟩ | ⟨hoff, -⟩
      · rw [heq]
        exact mem_found_put.mpr (.inl rfl)
      · exact absurd hon hoff
    have hbound' := lt_of_le_of_lt (untried_mono hcovers.seen) hbound
    obtain ⟨hall, hon⟩ := ih _ hrest hbound' (fun z hz => hcovers.seen z (hstack hz)) hsettled'
    refine ⟨hall, fun y hy hcase => ?_⟩
    rcases mem_cons.mp hy with rfl | hy
    · obtain ⟨hcovers', -⟩ := foldl_follow_covers bound harrives addr rest _ hbound'
      exact hcovers'.onPath addr (hfound hcase)
    · exact hon y hy hcase

/-- Without a trap every search from an address is settled: when it comes back, the address is on a
path if the goal is ahead of it. -/
theorem pathsFrom_settled (hfree : ¬ edges.Trapped source goal barred) :
    ∀ (fuel : Nat) (first : Bool) (addr : Int) (s : PathSearch) (stack : List Int),
      edges.untried s.seen < fuel →
      ComesBy edges source goal barred first addr stack → stack ⊆ s.seen →
        Settled edges goal barred stack s →
      Settled edges goal barred stack (edges.pathsFrom goal barred fuel first addr s) := by
  intro fuel
  induction fuel with
  | zero => intro first addr s stack hbound; omega
  | succ fuel ih =>
    intro first addr s stack hbound hcomes hstack hs
    rcases pathsFrom_cases edges goal barred fuel first addr s with
      ⟨rfl, rfl, heq⟩ | ⟨-, -, heq⟩ | ⟨hgoal, -, hbarred, heq⟩ | ⟨hgoal, hfresh, hopen, heq⟩
    · rw [heq]
      exact hs.put _
    · rwa [heq]
    · rw [heq]
      refine hs.see fun hahead => ?_
      obtain ⟨y, hedge, -⟩ := hahead.exists_edge
      exact hedge.2 hbarred
    · rw [heq]
      have hway := hcomes.descends hgoal fun hin => hfresh (hstack hin)
      by_cases hkey : addr ∈ edges.keys
      · have hless := untried_lt hkey hfresh
        have hs' : Settled edges goal barred (addr :: stack) { s with seen := addr :: s.seen } := by
          intro z hz hout hahead
          rcases mem_cons.mp hz with rfl | hz
          · exact absurd (.head _) hout
          · exact hs z hz (fun hin => hout (mem_cons_of_mem addr hin)) hahead
        obtain ⟨hall, hfound⟩ :=
          foldl_follow_settled fuel (pathsFrom_arrives edges goal barred fuel false)
          (fun next hnext s hs hsub hset => ih false next s (addr :: stack) hs
            (.inr ⟨rfl, addr, stack, rfl, hway, hnext, hopen⟩) hsub hset)
          (edges.getD addr []) { s with seen := addr :: s.seen } (fun _ hy => hy)
            (by dsimp only; omega)
          (cons_subset.mpr ⟨.head _, fun z hz => mem_cons_of_mem addr (hstack hz)⟩) hs'
        intro z hz hout hahead
        by_cases hz' : z = addr
        · subst hz'
          -- Some edge leads on: all others lead back into the way on which the search has come
          -- here.
          by_contra hoff
          refine hfree ⟨z, stack, hway, hahead, fun y hy => ⟨fun hgoal' => ?_, fun hy' => ?_⟩⟩
          · exact hoff (hfound y hy (.inl hgoal'))
          · by_contra hout'
            exact hoff (hfound y hy (.inr ⟨hy', hout'⟩))
        · exact hall z hz (fun hin => (mem_cons.mp hin).elim hz' hout) hahead
      · rw [getD_of_not_mem hkey]
        refine hs.see fun hahead => ?_
        obtain ⟨y, hedge, -⟩ := hahead.exists_edge
        rw [Open, getD_of_not_mem hkey] at hedge
        exact absurd hedge.1 not_mem_nil

/-! ## With a trap something is missed in some order -/

/-- An address has been tried and is not on a path. -/
def LeftOff (x : Int) (s : PathSearch) : Prop := x ∈ s.seen ∧ x ∉ s.onPath

theorem LeftOff.put (h : s.LeftOff x) (hne : x ≠ addr) : (s.put addr).LeftOff x :=
  ⟨h.1, fun hin => (mem_found_put.mp hin).elim hne h.2⟩

theorem LeftOff.foldl_follow (hsearch : ∀ next s, LeftOff x s → LeftOff x (search next s))
    (hne : x ≠ addr) (l : List Int) (h : s.LeftOff x) :
    (l.foldl (follow search addr) s).LeftOff x := by
  refine foldlRecOn (motive := LeftOff x) _ _ h fun s' hs' next _ => ?_
  rcases follow_cases search addr s' next with ⟨-, heq⟩ | ⟨-, heq⟩
  · rw [heq]
    exact (hsearch next s' hs').put hne
  · rw [heq]
    exact hsearch next s' hs'

/-- An address that was left off is not put on a path any more, unless it is the goal. -/
theorem LeftOff.pathsFrom (hx : x ≠ goal) :
    ∀ (fuel : Nat) (first : Bool) (addr : Int) (s : PathSearch),
    s.LeftOff x → (edges.pathsFrom goal barred fuel first addr s).LeftOff x := by
  intro fuel
  induction fuel with
  | zero => intro first addr s h; exact h
  | succ fuel ih =>
    intro first addr s h
    rcases pathsFrom_cases edges goal barred fuel first addr s with
      ⟨rfl, rfl, heq⟩ | ⟨-, -, heq⟩ | ⟨-, -, -, heq⟩ | ⟨-, hfresh, -, heq⟩
    · rw [heq]
      exact h.put hx
    · rwa [heq]
    · rw [heq]
      exact ⟨mem_cons_of_mem addr h.1, h.2⟩
    · rw [heq]
      have hne : x ≠ addr := fun heq => hfresh (heq ▸ h.1)
      exact LeftOff.foldl_follow (fun next s => ih false next s) hne _ ⟨mem_cons_of_mem addr h.1,
        h.2⟩

/-- What leads to the goal along what was found has the goal ahead. -/
theorem LeadsBack.ahead (h : s.LeadsBack edges goal barred) (hx : x ∈ s.found) (hne : x ≠ goal) :
    edges.Ahead goal barred x := by
  have hway := h.back x hx
  clear hx
  induction hway using Relation.ReflTransGen.head_induction_on with
  | refl => exact absurd rfl hne
  | @head a c hedge _ ih =>
    have hopen : edges.Open barred a c := ⟨hedge.1, h.free a hedge.2.1 hne⟩
    by_cases hgoal : c = goal
    · exact ⟨a, .refl, hgoal ▸ hopen⟩
    · exact (ih hgoal).head ⟨hopen, hgoal⟩

/-- Where the goal is not ahead, nothing is found. -/
theorem onPath_pathsFrom_of_not_ahead (hgoal : addr ≠ goal) (h : ¬ edges.Ahead goal barred addr)
    (hs : s.onPath = []) (fuel : Nat) :
    (edges.pathsFrom goal barred fuel false addr s).onPath = [] := by
  have hnone : ∀ x, x ∉ s.found := fun x hx => by
    have hin : x ∈ s.onPath := hx
    rw [hs] at hin
    cases hin
  have hstart : s.LeadsBack edges goal barred :=
    ⟨fun x hx => absurd hx (hnone x), fun x hx => absurd hx (hnone x)⟩
  obtain ⟨hback, hfinds⟩ := pathsFrom_finds fuel false addr s hstart
  refine eq_nil_iff_forall_not_mem.mpr fun x hx => h ?_
  exact hback.ahead (hfinds.mem_found hx (hnone x)) hgoal

theorem pathsFrom_of_seen (hgoal : addr ≠ goal) (hseen : addr ∈ s.seen) (fuel : Nat) :
    edges.pathsFrom goal barred fuel false addr s = s := by
  cases fuel with
  | zero => rfl
  | succ fuel => simp [pathsFrom, hgoal, hseen]

/-- At the end of a trap nothing is found: whatever has the goal ahead is under search. -/
theorem leftOff_of_trap
    (hback : ∀ y ∈ edges.getD last [], y ≠ goal ∧ (edges.Ahead goal barred y → y ∈ last :: rest))
    (hahead : edges.Ahead goal barred last) (hgoal : last ≠ goal) (hnew : last ∉ rest)
    (first : Bool) (fuel : Nat) :
    (edges.pathsFrom goal barred (fuel + 1) first last ⟨rest, []⟩).LeftOff last := by
  obtain ⟨y, hopen, -⟩ := hahead.exists_edge
  rw [pathsFrom_of_fresh (by simp [hgoal]) hnew hopen.2]
  obtain ⟨hseen, hnone⟩ := foldlRecOn
    (motive := fun s : PathSearch => (∀ x ∈ last :: rest, x ≠ goal → x ∈ s.seen) ∧ s.onPath = [])
    (edges.getD last []) (follow (edges.pathsFrom goal barred fuel false) last)
      (b := ⟨last :: rest, []⟩)
    ⟨fun _ h _ => h, rfl⟩ fun s hs next hnext => by
      obtain ⟨hne, hin⟩ := hback next hnext
      have hnone : (edges.pathsFrom goal barred fuel false next s).onPath = [] := by
        by_cases hahead' : edges.Ahead goal barred next
        · rw [pathsFrom_of_seen hne (hs.1 next (hin hahead') hne) fuel]
          exact hs.2
        · exact onPath_pathsFrom_of_not_ahead hne hahead' hs.2 fuel
      rcases follow_cases (edges.pathsFrom goal barred fuel false) last s next with ⟨hon,
        -⟩ | ⟨-, heq⟩
      · rw [hnone] at hon
        cases hon
      · rw [heq]
        refine ⟨fun x hx hxg => ?_, hnone⟩
        exact (LeftOff.pathsFrom hxg fuel false next s ⟨hs.1 x hx hxg, by simp [hs.2]⟩).1
  exact ⟨hseen last (.head _) hgoal, by rw [hnone]; exact not_mem_nil⟩

/-- Where the edges along a way come first, the search goes down the way before anything else. What
is left off when it comes to the end of the way is left off for good. -/
theorem leftOff_of_descends (hway : edges.Descends source goal barred way)
    (hfirst : way.IsChain fun b a => (edges.getD a []).head? = some b) (hx : x ≠ goal) :
    ∀ a rest, way = a :: rest → x ∉ rest → ∀ fuel,
      (edges.pathsFrom goal barred fuel rest.isEmpty a ⟨rest, []⟩).LeftOff x →
      (edges.pathsFrom goal barred (fuel + rest.length) true source ⟨[], []⟩).LeftOff x := by
  induction hway with
  | start =>
    intro a rest heq _ fuel h
    obtain ⟨rfl, rfl⟩ := cons.inj heq
    exact h
  | @step a b rest hway hedge hnew ih =>
    intro b' rest' heq hout fuel h
    obtain ⟨rfl, rfl⟩ := cons.inj heq
    obtain ⟨hhead, hchain⟩ := isChain_cons_cons.mp hfirst
    obtain ⟨tail, htail⟩ := List.head?_eq_some_iff.mp hhead
    have hstep : (edges.pathsFrom goal barred (fuel + 1) rest.isEmpty a ⟨rest, []⟩).LeftOff x := by
      have hne : x ≠ a := fun heq => hout (heq ▸ .head _)
      rw [pathsFrom_of_fresh hway.fresh.2 hway.fresh.1 hedge.1.2, htail, foldl_cons]
      refine LeftOff.foldl_follow (fun next s => LeftOff.pathsFrom hx fuel false next s) hne tail ?_
      rcases follow_cases (edges.pathsFrom goal barred fuel false) a ⟨a :: rest, []⟩ b with ⟨-,
        heq⟩ | ⟨-, heq⟩
      · rw [heq]
        exact LeftOff.put h hne
      · rw [heq]
        exact h
    rw [length_cons, ← Nat.add_assoc, Nat.add_right_comm]
    exact ih hchain a rest rfl (fun hin => hout (mem_cons_of_mem a hin)) (fuel + 1) hstep

end PathSearch

namespace Edges

open PathSearch

variable {edges edges' : Edges} {source goal : Int} {barred : List Int}

/-- The edges with one of those from an address put in front of the others. -/
def putFirst (edges : Edges) (a b : Int) : Edges := edges.insert a (b :: (edges.getD a []).erase b)

theorem reordered_putFirst (h : b ∈ edges.getD a []) : edges.Reordered (edges.putFirst a b) := by
  intro x
  rw [putFirst, getD_insert]
  split
  · rename_i heq
    exact heq ▸ perm_cons_erase h
  · exact .refl _

/-- The edges along a way can be put first. -/
theorem exists_reordered_along (hway : edges.Descends source goal barred way) :
    ∃ edges', edges.Reordered edges' ∧ way.IsChain fun b a =>
      (edges'.getD a []).head? = some b := by
  induction hway with
  | start => exact ⟨edges, fun _ => .refl _, .singleton _⟩
  | @step a b rest hway hedge _ ih =>
    obtain ⟨edges', hsame, hchain⟩ := ih
    refine ⟨edges'.putFirst a b,
      hsame.trans (reordered_putFirst ((hsame a).mem_iff.mp hedge.1.1)), ?_⟩
    refine isChain_cons_cons.mpr ⟨by simp [putFirst, getD_insert], ?_⟩
    -- The other edges that were put first leave other addresses.
    refine hchain.imp_of_mem_tail_imp fun c d _ hd hcd => ?_
    have hne : a ≠ d := fun heq => hway.fresh.1 (heq ▸ hd)
    rwa [putFirst, getD_insert, if_neg hne]

/-! ## What the search gives -/

theorem onWay_of_mem_paths (hx : x ∈ edges.paths source goal barred) :
    edges.OnWay source goal barred x :=
  (pathsFrom_truthful _ true source ⟨[], []⟩ (.inl ⟨rfl, rfl⟩)
    ⟨forall_mem_nil _, forall_mem_nil _⟩).onWay x hx

/-- The goal is found if there is a way to it. -/
theorem goal_mem_paths (h : edges.Ahead goal barred source) :
    goal ∈ edges.paths source goal barred := by
  obtain ⟨z, hway, hlast⟩ := h
  have hz := ((followed_of_reached hway).2 hlast.2 goal hlast.1).1 rfl
  exact (pathsFrom_finds (edges.size + 2) true source ⟨[], []⟩ leadsBack_start).1.mem_goal hz

/-- Nothing is found exactly if there is no way to the goal. -/
theorem paths_eq_nil_iff :
    edges.paths source goal barred = [] ↔ ¬ edges.Ahead goal barred source := by
  constructor
  · intro hnil hahead
    have hgoal := goal_mem_paths hahead
    rw [hnil] at hgoal
    cases hgoal
  · intro hnone
    exact eq_nil_iff_forall_not_mem.mpr fun x hx => hnone (onWay_of_mem_paths hx).ahead

/-- Without a trap all that lies on a way is found. -/
theorem mem_paths_iff (hfree : ¬ edges.Trapped source goal barred) :
    x ∈ edges.paths source goal barred ↔ edges.OnWay source goal barred x := by
  refine ⟨onWay_of_mem_paths, fun hx => ?_⟩
  rcases hx with ⟨rfl, hahead⟩ | ⟨hway, hahead⟩
  · exact goal_mem_paths hahead
  · exact pathsFrom_settled hfree _ true source ⟨[], []⟩ [] edges.untried_lt_steps
      (.inl ⟨rfl, rfl, rfl⟩)
      (nil_subset _) (forall_mem_nil _) x (followed_of_reached hway).1 not_mem_nil hahead

/-- With a trap there is an order in which its end is not found, although it lies on a way. -/
theorem exists_missed (h : edges.Trapped source goal barred) :
    ∃ edges' x, edges.Reordered edges' ∧ edges.OnWay source goal barred x ∧
      x ∉ edges'.paths source goal barred := by
  obtain ⟨last, rest, hway, hahead, hback⟩ := h
  obtain ⟨edges', hsame, hchain⟩ := exists_reordered_along hway
  refine ⟨edges', last, hsame, .inr ⟨hway.leads_to_last source hway.source_mem, hahead⟩, ?_⟩
  have hgoal : last ≠ goal := by
    rintro rfl
    -- The goal can only be the end of a way that ends where it begins, and from there no edge leads
    -- on.
    obtain rfl : rest = [] := by simpa using hway.fresh.2
    obtain ⟨y, hopen, hy⟩ := hahead.exists_edge
    obtain ⟨hne, hin⟩ := hback y hopen.1
    exact hne (mem_singleton.mp (hin (hy hne)))
  have hback' : ∀ y ∈ edges'.getD last [], y ≠ goal ∧
      (edges'.Ahead goal barred y → y ∈ last :: rest) := by
    intro y hy
    rw [hsame.ahead_iff]
    exact hback y ((hsame last).mem_iff.mpr hy)
  have hend := leftOff_of_trap hback' (hsame.ahead_iff.mpr hahead) hgoal hway.fresh.1 rest.isEmpty
    (edges'.size + 1)
  have hleft := leftOff_of_descends (hsame.descends hway) hchain hgoal last rest rfl
    hway.fresh.1 _ hend
  rw [paths, pathsFrom_steps (edges'.size + 2) (edges'.size + 1 + 1 + rest.length) true source
    ⟨[], []⟩ edges'.untried_lt_steps (Nat.lt_of_lt_of_le edges'.untried_lt_steps (by omega))]
  exact hleft.2

/-- The order of the edges decides neither whether anything is found nor, where the search cannot be
trapped, what is found. Where it cannot be trapped, all that lies on a way from the source to the
goal is found in every order, and this is the only such case. -/
theorem paths_reordered {edges edges' : Edges} (h : edges.Reordered edges') (source goal : Int)
    (barred : List Int) :
    (edges.paths source goal barred = [] ↔ edges'.paths source goal barred = []) ∧
    (¬ edges.Trapped source goal barred →
      ∀ x, x ∈ edges.paths source goal barred ↔ x ∈ edges'.paths source goal barred) ∧
    ((∀ edges'', edges.Reordered edges'' →
        ∀ x, x ∈ edges''.paths source goal barred ↔ edges.OnWay source goal barred x) ↔
      ¬ edges.Trapped source goal barred) := by
  have hcomplete : ¬ edges.Trapped source goal barred → ∀ edges'', edges.Reordered edges'' →
      ∀ x, x ∈ edges''.paths source goal barred ↔ edges.OnWay source goal barred x := by
    intro hfree edges'' h'' x
    rw [mem_paths_iff fun htrap => hfree (h''.symm.trapped htrap), h''.onWay_iff]
  refine ⟨?_, fun hfree x => ?_, fun hall htrap => ?_, hcomplete⟩
  · rw [paths_eq_nil_iff, paths_eq_nil_iff, h.ahead_iff]
  · rw [hcomplete hfree edges' h x, mem_paths_iff hfree]
  · obtain ⟨edges'', x, h'', hway, hmissed⟩ := exists_missed htrap
    exact hmissed ((hall edges'' h'' x).mpr hway)

/-- A search is not trapped where every address with the goal ahead has an edge to the goal, or to
an address with the goal ahead that does not lead back. -/
theorem not_trapped_of_leads_on
    (h : ∀ a, edges.Ahead goal barred a → ∃ y ∈ edges.getD a [], y = goal ∨
      (edges.Ahead goal barred y ∧ ¬ Relation.ReflTransGen (edges.Onward goal barred) y a)) :
    ¬ edges.Trapped source goal barred := by
  rintro ⟨last, rest, hway, hahead, hback⟩
  obtain ⟨y, hy, hon⟩ := h last hahead
  obtain ⟨hne, hin⟩ := hback y hy
  obtain ⟨hy', hone⟩ := hon.resolve_left hne
  exact hone (hway.leads_to_last y (hin hy'))

/-- A loop of two addresses that can be left from both, and a way past it. -/
def leftFromBoth : Edges := ⟨[(0, [1, 3]), (1, [2, 4]), (2, [1, 4]), (3, [4])]⟩

/-- A search for the ways past the loop finds the loop too, also where the edges that leave it come
first. -/
theorem paths_reordered_leftFromBoth :
    leftFromBoth.Reordered (leftFromBoth.putFirst 1 4) ∧ ¬ leftFromBoth.Trapped 0 4 [] ∧
      2 ∈ leftFromBoth.paths 0 4 [] ∧
      ∀ x, x ∈ leftFromBoth.paths 0 4 [] ↔ x ∈ (leftFromBoth.putFirst 1 4).paths 0 4 [] := by
  have hsame : leftFromBoth.Reordered (leftFromBoth.putFirst 1 4) := reordered_putFirst (by decide)
  have hlast : ∀ a ∈ [1, 2, 3], leftFromBoth.Open [] a 4 := by
    intro a ha
    refine ⟨?_, not_mem_nil⟩
    revert a
    decide
  have hfree : ¬ leftFromBoth.Trapped 0 4 [] := by
    refine not_trapped_of_leads_on fun a ha => ?_
    obtain ⟨y, hopen, -⟩ := ha.exists_edge
    have hkey : a ∈ leftFromBoth.keys := by
      by_contra hout
      exact absurd (getD_of_not_mem hout ▸ hopen.1) not_mem_nil
    rcases mem_cons.mp hkey with rfl | hkey
    · -- From the beginning the way past the loop leads on, and not back.
      refine ⟨3, by decide, .inr ⟨⟨3, .refl, hlast 3 (by decide)⟩, fun hback => ?_⟩⟩
      rcases hback.cases_head with h | ⟨b, hedge, -⟩
      · exact absurd h (by decide)
      · exact hedge.2 (mem_singleton.mp hedge.1.1)
    · exact ⟨4, (hlast a hkey).1, .inl rfl⟩
  exact ⟨hsame, hfree, by decide, (paths_reordered hsame 0 4 []).2.1 hfree⟩

/-- Two addresses that lead to each other, both reached from the source, and the goal behind the
first. -/
def eachOther : Edges := ⟨[(1, [2, 3]), (2, [3, 4]), (3, [2])]⟩

/-- The second of two addresses that lead to each other lies on a way on which no address stands
twice. It is found only if the first has its edge to the goal before the edge to it. -/
theorem paths_depend_on_order :
    eachOther.Descends 1 4 [] [2, 3, 1] ∧ 4 ∈ eachOther.getD 2 [] ∧
      eachOther.Reordered (eachOther.putFirst 2 4) ∧
      eachOther.paths 1 4 [] = [1, 2, 4] ∧ 3 ∈ (eachOther.putFirst 2 4).paths 1 4 [] := by
  refine ⟨?_, by decide, reordered_putFirst (by decide), by decide, by decide⟩
  have hthree : eachOther.Descends 1 4 [] [3, 1] :=
    .step .start ⟨⟨by decide, not_mem_nil⟩, by decide⟩ (by decide)
  exact hthree.step ⟨⟨by decide, not_mem_nil⟩, by decide⟩ (by decide)

end Edges

end Decompiler
