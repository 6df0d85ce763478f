import Decompiler.Proofs.Progress
/-!
# Where the bodies of loops begin

A loop is put into the draft together with its start, which is the first node of its body, and the
first node of a branch is never taken away again. So in every state of a structuring the body of a
loop begins with the start of the loop that it was opened for, and the loop is written as endless
exactly if that one is marked so (`headed_of_run`).
-/

namespace Decompiler

open List

variable {nest : LoopNest} {insns : List Insn}

/-! ## Drafts that grow -/

namespace Draft

variable {d d' d'' : Draft}

/-- A node was put at the end of a branch, and nothing else has changed but for new, empty
branches. -/
def Adjoined (d : Draft) (b : Nat) (n : DraftNode) (d' : Draft) : Prop :=
  ∀ c, d'.nodes c = if b = c then d.nodes b ++ [n] else d.nodes c

/-- The first nodes of branches have stayed, and no loop has come in. -/
structure Grows (d d' : Draft) : Prop where
  heads : ∀ b n, (d.nodes b).head? = some n → (d'.nodes b).head? = some n
  loops : ∀ b endless body, .loop endless body ∈ d'.nodes b → .loop endless body ∈ d.nodes b

theorem Grows.refl (d : Draft) : d.Grows d := ⟨fun _ _ h => h, fun _ _ _ h => h⟩

theorem Grows.trans (h : d.Grows d') (h' : d'.Grows d'') : d.Grows d'' :=
  ⟨fun b n hn => h'.heads b n (h.heads b n hn), fun b endless body hin =>
    h.loops b endless body (h'.loops b endless body hin)⟩

variable {n : DraftNode} {b : Nat}

/-- What stands for code is no loop. -/
theorem ne_loop_of_key? {a : Int} (h : n.key? = some a) (endless : Bool) (body : Nat) :
    n ≠ .loop endless body := by
  rintro rfl
  cases h

theorem Adjoined.heads (h : d.Adjoined b n d') (c : Nat) (m : DraftNode)
    (hm : (d.nodes c).head? = some m) : (d'.nodes c).head? = some m := by
  rw [h c]
  split
  · rename_i heq
    obtain rfl := heq
    rw [List.head?_append, hm, Option.some_or]
  · exact hm

theorem Adjoined.grows (h : d.Adjoined b n d') (hn : ∀ endless body, n ≠ .loop endless body) :
    d.Grows d' := by
  refine ⟨h.heads, fun c endless body hin => ?_⟩
  rw [h c] at hin
  split at hin
  · rename_i heq
    obtain rfl := heq
    exact (mem_append.mp hin).resolve_right fun hlast =>
      hn endless body (mem_singleton.mp hlast).symm
  · exact hin

theorem adjoined_add (hb : b < d.size) (n : DraftNode) : d.Adjoined b n (d.add b n) :=
  nodes_add hb n

theorem grows_add (b : Nat) (hn : ∀ endless body, n ≠ .loop endless body) :
    d.Grows (d.add b n) := by
  by_cases hb : b < d.size
  · exact (adjoined_add hb n).grows hn
  · rw [add_of_size_le (Nat.le_of_not_lt hb)]
    exact Grows.refl d

theorem grows_dropLast (hlen : 1 < (d.nodes b).length) : d.Grows (d.dropLast b) := by
  constructor
  · intro c n hn
    rw [nodes_dropLast]
    split
    · rename_i heq
      obtain rfl := heq
      rw [List.head?_eq_getElem?, List.getElem?_dropLast, if_pos (by omega),
        ← List.head?_eq_getElem?]
      exact hn
    · exact hn
  · intro c endless body hin
    rw [nodes_dropLast] at hin
    split at hin
    · rename_i heq
      obtain rfl := heq
      exact mem_of_mem_dropLast hin
    · exact hin

theorem grows_endWithGoto (uncond : List Int) (addr : Int) (d : Draft) (b : Nat) :
    d.Grows (Structuring.endWithGoto uncond addr d b) := by
  rcases endWithGoto_eq uncond addr d b with heq | heq
  · rw [heq]
    exact grows_add b fun _ _ h => by cases h
  · rw [heq]
    exact Grows.refl d

/-! ## Bodies -/

/-- A loop that was opened for a recorded one: it is endless if that one is marked so, and begins
with its start. -/
def Begun (nest : LoopNest) (d : Draft) (endless : Bool) (body : Nat) : Prop :=
  ∃ k ∈ nest.tables.all.keys, endless = decide (k ∈ nest.endless) ∧
    ∃ n, (d.nodes body).head? = some n ∧ n.key? = some k.start

/-- All loops in a draft were opened for recorded ones. -/
def Headed (nest : LoopNest) (d : Draft) : Prop :=
  ∀ b endless body, .loop endless body ∈ d.nodes b → Begun nest d endless body

theorem headed_start (nest : LoopNest) : Headed nest Draft.start := by
  intro b endless body hin
  have hnil : start.nodes b = [] := by
    cases b <;> rfl
  rw [hnil] at hin
  cases hin

theorem Begun.mono {endless : Bool} {body : Nat} (h : Begun nest d endless body)
    (hheads : ∀ n, (d.nodes body).head? = some n → (d'.nodes body).head? = some n) :
    Begun nest d' endless body := by
  obtain ⟨k, hk, hendless, n, hn, hkey⟩ := h
  exact ⟨k, hk, hendless, n, hheads n hn, hkey⟩

theorem Headed.grows (h : Headed nest d) (hgrows : d.Grows d') : Headed nest d' :=
  fun b endless body hin => (h b endless body (hgrows.loops b endless body hin)).mono
    (hgrows.heads body)

end Draft

namespace Structuring

open Draft

variable {subj : Subject} {s s' : Build} {f : Fork} {scope : Scope} {b level : Nat} {t : Task}
  {addr : Int}

/-! ## Steps -/

/-- Whichever way a conditional jump is placed, it is put at the end of its branch. -/
theorem Forked.adjoins (hb : f.branch < s.draft.size) (h : Forked subj scope f s (.ok () s')) :
    ∃ n, n.key? = some f.jump.addr ∧ s.draft.Adjoined f.branch n s'.draft := by
  cases h with
  | leaves => exact ⟨_, rfl, adjoined_add hb _⟩
  | @narrows cond out inside =>
    refine ⟨.andIf f.jump cond inside f.slot, rfl, fun c => ?_⟩
    rw [nodes_newBranch]
    exact nodes_add hb _ c
  | @parted found joint =>
    refine ⟨.ifElse f.jump (joint.getD f.target) s.draft.size (s.draft.size + 1) f.slot, rfl,
      fun c => ?_⟩
    rw [nodes_add (by simp only [size_newBranch]; omega)]
    simp only [nodes_newBranch]

/-- A node is put at the end of the branch that it is placed in. -/
theorem placeNode_adjoins (hg : subj.graph.WellFormed) (hb : b < s.draft.size)
    (hnode : subj.graph.nodes.get? t.addr = some insns)
    (hs : placeNode subj scope b level t insns s = .ok () s') :
    ∃ n, n.key? = some t.addr ∧ s.draft.Adjoined b n s'.draft := by
  have hput := placeNode_put hg scope b level s hnode
  rw [hs] at hput
  obtain ⟨i, rest, rfl, hi⟩ := hg.heads _ _ hnode
  have hkey : (DraftNode.block (i :: rest)).key? = some t.addr := by simp [DraftNode.key?, hi]
  cases hput with
  | stop | step => exact ⟨_, hkey, adjoined_add hb _⟩
  | fork hjump _ hforked => exact hjump ▸ hforked.adjoins hb

theorem withoutGoto_grows (d : Draft) (b : Nat) (addr : Int) : d.Grows (withoutGoto d b addr) := by
  unfold withoutGoto
  split
  · rename_i hlast
    exact grows_dropLast (of_decide_eq_true (Bool.and_eq_true_iff.mp hlast).1)
  · exact Grows.refl _

theorem gather_grows {r : Option Nat} (hs : gather subj scope b t.source t.addr s = .ok r s') :
    s.draft.Grows s'.draft := by
  obtain ⟨-, -, p, -, rfl⟩ | ⟨best, d, waiting, -, hassembles, rfl⟩ := gather_awaits hs
  · exact Grows.refl _
  · cases hassembles with
    | alone => exact Grows.refl _
    | together =>
      exact foldlRecOn (motive := s.draft.Grows) _ _ (Grows.refl _) fun d hd c _ =>
        hd.trans (grows_endWithGoto _ t.addr d c)

theorem referBack_grows (hs : referBack subj scope b addr s = .ok () s') :
    s.draft.Grows s'.draft := by
  obtain ⟨needed, -, rfl⟩ := referBack_eq_ok hs
  cases needed with
  | true => exact grows_add b fun _ _ h => by cases h
  | false => exact Grows.refl _

/-- A loop is opened in a new branch. -/
theorem opensLoop_adjoins (subj : Subject) (scope : Scope) (hb : b < s.draft.size) (level : Nat)
    (addr : Int) :
    s.draft.Adjoined b (.loop (decide ((⟨scope.start, addr⟩ : LoopId) ∈ subj.nest.endless))
      s.draft.size) (opensLoop subj scope b level addr s).draft := by
  intro c
  rw [opensLoop, nodes_add (by rw [size_newBranch]; omega)]
  simp only [nodes_newBranch]

/-- Opening a loop and placing its start in it keeps a draft headed. -/
theorem headed_of_opened (hd : Headed subj.nest s.draft) (hb : b < s.draft.size) {k : LoopId}
    (hk : k ∈ subj.nest.tables.all.keys) {d₁ d₂ : Draft} {n : DraftNode}
    (hloop : s.draft.Adjoined b (.loop (decide (k ∈ subj.nest.endless)) s.draft.size) d₁)
    (hn : n.key? = some k.start) (hbody : d₁.Adjoined s.draft.size n d₂) : Headed subj.nest d₂ := by
  have hfirst : (d₂.nodes s.draft.size).head? = some n := by
    rw [hbody s.draft.size, if_pos rfl, hloop s.draft.size, if_neg (by omega),
      nodes_of_size_le (le_refl _)]
    rfl
  intro c endless body hin
  replace hin := (hbody.grows (ne_loop_of_key? hn)).loops c endless body hin
  rw [hloop c] at hin
  split at hin
  · rename_i heq
    obtain rfl := heq
    rcases mem_append.mp hin with hin | hin
    · exact (hd b endless body hin).mono fun m hm => hbody.heads body m (hloop.heads body m hm)
    · -- The loop that was opened just now.
      cases mem_singleton.mp hin
      exact ⟨k, hk, rfl, n, hfirst, hn⟩
  · exact (hd c endless body hin).mono fun m hm => hbody.heads body m (hloop.heads body m hm)

theorem settle_headed (hg : subj.graph.WellFormed) (h : s.Bounded) (hd : Headed subj.nest s.draft)
    (hb : b < s.draft.size) {loops : List LoopFrame}
    (hnode : subj.graph.nodes.get? t.addr = some insns)
    (hs : settle subj scope b level t loops insns s = .ok () s') : Headed subj.nest s'.draft := by
  have hd₁ := hd.grows (withoutGoto_grows s.draft b t.addr)
  have hb₁ : b < (withoutGoto s.draft b t.addr).size :=
    (withoutGoto_sameCode h.draft b t.addr).size ▸ hb
  rw [settle_eq] at hs
  split at hs
  · rename_i hstarts
    have hopened := opensLoop_adjoins subj scope
      (s := { s with draft := withoutGoto s.draft b t.addr }) hb₁ (level + 1) t.addr
    obtain ⟨n, hn, hplaced⟩ := placeNode_adjoins hg (by simp [opensLoop])
      (t := { t with loops := ⟨b, scope.start, t.addr⟩ :: loops, otherWay := none }) hnode hs
    exact headed_of_opened (s := { s with draft := withoutGoto s.draft b t.addr }) hd₁ hb₁
      (OrdMap.contains_iff.mp (Bool.and_eq_true_iff.mp hstarts).1) hopened hn hplaced
  · obtain ⟨n, hn, hplaced⟩ := placeNode_adjoins hg hb₁ (t := { t with loops }) hnode hs
    exact hd₁.grows (hplaced.grows (ne_loop_of_key? hn))

/-- What a step leaves of the loops in a draft. -/
theorem place_headed (hg : subj.graph.WellFormed) (h : s.Bounded) (hd : Headed subj.nest s.draft)
    (ht : t.Within s.draft.size) (hs : place subj t s = .ok () s') : Headed subj.nest s'.draft := by
  obtain ⟨-, rfl⟩ | ⟨insns, b, loops, hnode, hleave, hs⟩ := place_eq_ok hs
  · exact hd
  · obtain ⟨hb, -⟩ := leaveLoops_bounded ht.loops ht.branch hleave
    obtain ⟨-, hs⟩ | ⟨-, r, s₁, hgather, hs⟩ := hs
    · exact hd.grows (referBack_grows hs)
    · have hd₁ := hd.grows (gather_grows hgather)
      obtain ⟨-, rfl⟩ | ⟨best, level, rfl, hs⟩ := hs
      · exact hd₁
      · obtain ⟨hnone, -⟩ | ⟨_, heq, hbest, hgath⟩ := gather_cases h (hb b rfl) hgather
        · cases hnone
        · obtain rfl := Option.some.inj heq
          exact settle_headed hg hgath.bounded hd₁ hbest hnode hs

/-- In every state of a structuring, the loops in the draft were opened for recorded ones and begin
with their starts. -/
theorem headed_of_run (hsubj : subj.Sound) {labels : OrdMap Int String}
    (hrun : Run subj (Build.start subj.graph.entry labels ∅) s) : Headed subj.nest s.draft := by
  induction hrun with
  | refl => exact headed_start subj.nest
  | @tail s s' hrun hstep ih =>
    obtain ⟨t, rest, htasks, hplace⟩ := hstep
    have hbounded := ((Accounts.start subj hsubj.graph labels ∅).run hsubj.graph hrun).bounded
    exact place_headed hsubj.graph (s := { s with tasks := rest })
      ⟨hbounded.draft, fun t' ht' => hbounded.tasks t' (htasks ▸ mem_cons_of_mem t ht'),
      hbounded.pending⟩ ih (hbounded.tasks t (htasks ▸ .head _)) hplace

end Structuring

end Decompiler
