import Decompiler.Proofs.CodeKept
import Decompiler.Proofs.JoinPoint
import Decompiler.Proofs.LoopNest
/-!
# A structuring goes on unless it meets an edge that is not waited for

Every task can be dealt with but in two situations: it comes first to a node that waits for several
predecessors and is none of them, or its node branches in two and the search for the place where the
ways meet comes to such a node (`Stuck`). All else that could fail does not: the loops that are open
are recorded, one way out of a conditional jump stays in the loop, branches are where they are
looked for, and there are steps enough. So a structuring fails exactly if it comes to a task that is
stuck (`build_fails_iff`).
-/

namespace Decompiler

open List Structuring OrdMap

/-- A task that can be followed: the loops open there are recorded, and only a task that leaves the
innermost of them has no branch. -/
structure Task.Rooted (nest : LoopNest) (t : Task) : Prop where
  frames : ∀ f ∈ t.loops, f.id ∈ nest.tables.all.keys
  branch : t.branch = none → ∃ f outer, t.loops = f :: outer ∧ t.addr ∉ nest.tables.all.getD f.id []

/-- A structuring on its way, as far as it matters for going on. -/
structure Build.Ready (subj : Subject) (s : Build) : Prop where
  tasks : ∀ t ∈ s.tasks, t.Rooted subj.nest
  fits : s.draft.Fits subj.graph
  pending : ∀ a p, s.pending.get? a = some p → p.branches ≠ [] ∧
    p.branches.length = p.loopStarts.length

/-- What is structured is as it comes out of the analysis of the graph and of its loops. -/
structure Structuring.Subject.Sound (subj : Subject) : Prop where
  graph : subj.graph.WellFormed
  classified : subj.graph.Classified subj.arch
  tables : subj.nest.tables.Sound subj.graph
  spurious : subj.nest.spurious = []

theorem Graph.HasNest.subject {p p' : Program} {entry : Int} {g₀ g : Graph} {nest : LoopNest}
    (hnest : g.HasNest nest) (hp : p.Keyed) (hfound : Graph.discover entry p = .ok (some g₀) p')
    (hblocks : g₀.blocks p.arch = .ok g) (further : Bool) :
    Subject.Sound ⟨p.arch, g, nest, further⟩ ∧ g.entry = entry := by
  obtain ⟨hwf, hclass, hentry⟩ := Graph.wellFormed_of_blocks hp hfound hblocks
  obtain ⟨hsound, hspurious⟩ := hnest.sound hwf
  exact ⟨⟨hwf, hclass, hsound, hspurious⟩, hentry⟩

/-! ## What keeps a structuring ready -/

namespace Build.Ready

variable {subj : Subject} {s : Build}

section

variable (h : s.Ready subj)
include h

theorem withDraft {d : Draft} (hd : d.Fits subj.graph) : Ready subj { s with draft := d } :=
  ⟨h.tasks, hd, h.pending⟩

theorem note (visited : List Int) (labels : OrdMap Int String) (memo : PathMemo) :
    Ready subj { s with visited, labels, memo } :=
  { h with }

theorem addLeaf (b : Nat) {n : DraftNode} (hn : n.Of subj.graph) (hrefs : n.refs = []) :
    Ready subj { s with draft := s.draft.add b n } :=
  h.withDraft (h.fits.add_leaf b hn hrefs)

theorem newBranch (parent : Option Nat) (level : Nat) (place : Int) :
    Ready subj { s with draft := (s.draft.newBranch parent level place).2 } :=
  h.withDraft (h.fits.newBranch parent level place)

theorem push {t : Task} (ht : t.Rooted subj.nest) : Ready subj { s with tasks := t :: s.tasks } :=
  ⟨forall_mem_cons.mpr ⟨ht, h.tasks⟩, h.fits, h.pending⟩

theorem putOff (addr : Int) {p : Pending} (hne : p.branches ≠ [])
    (hlen : p.branches.length = p.loopStarts.length) :
    Ready subj { s with pending := s.pending.insert addr p } := by
  refine { h with pending := fun a q hq => ?_ }
  rcases of_get?_insert hq with ⟨-, rfl⟩ | hq
  · exact ⟨hne, hlen⟩
  · exact h.pending a q hq

theorem foresees (scope : Scope) (b : Nat) (joint : Option Int) :
    Ready subj { s with pending := Structuring.foresees subj scope b joint s.pending } := by
  unfold Structuring.foresees
  split
  · exact h
  · split
    · exact h.putOff _ (by simp) (by simp)
    · exact h

end

end Build.Ready

namespace Structuring

variable {subj : Subject} {s s' : Build} {t : Task}

/-! ## Going back, putting off and gathering -/

theorem referBack_does (hsubj : subj.Sound) (h : s.Ready subj) (scope : Scope) (b : Nat)
    (addr : Int) :
    Does (fun _ s' => s'.Ready subj) (fun _ => False) (referBack subj scope b addr s) := by
  have hgoto : ∃ r, needsGoto subj scope (s.draft.nodes b) addr = .ok r := by
    unfold needsGoto
    split
    · exact ⟨false, rfl⟩
    · split
      · rename_i i rest hlast
        obtain ⟨a, hnode, -⟩ := h.fits.of_mem (mem_of_getLast? hlast)
        obtain ⟨u, hu, -⟩ := hsubj.classified.uncond a i rest hnode
        rw [hu]
        exact ⟨!u, rfl⟩
      · exact ⟨true, rfl⟩
  obtain ⟨r, hr⟩ := hgoto
  simp only [referBack, get_bind_apply, hr]
  cases r with
  | false => exact h
  | true => exact h.addLeaf b trivial rfl

/-- Some branch is the least nested one, since no loop is spurious. -/
theorem leastNested_isSome (d : Draft) (addr : Int) :
    ∀ (l : List (Nat × Int)) (k : Nat) (best : Option (Nat × Nat)),
    best.isSome = true ∨ l ≠ [] → ∃ r, leastNested d [] addr k l best = some r := by
  intro l
  induction l with
  | nil =>
    intro k best h
    obtain ⟨r, hr⟩ := Option.isSome_iff_exists.mp (h.resolve_right fun hne => hne rfl)
    exact ⟨r, by rw [leastNested, hr]⟩
  | cons e l ih =>
    intro k best _
    obtain ⟨b, start⟩ := e
    simp only [leastNested, not_mem_nil, if_false]
    refine ih (k + 1) _ (.inl ?_)
    cases best with
    | none => rfl
    | some r =>
      dsimp only
      split <;> rfl

theorem assemble_does (hspurious : subj.nest.spurious = []) (h : s.Ready subj) (addr : Int)
    {p : Pending} (hne : p.branches ≠ []) (hlen : p.branches.length = p.loopStarts.length) :
    Does (fun _ s' => s'.Ready subj) (fun _ => False) (assemble subj addr p s) := by
  have hzip : p.branches.zip p.loopStarts ≠ [] := by
    intro hnil
    rcases zip_eq_nil_iff.mp hnil with hb | hl
    · exact hne hb
    · rw [hl, length_nil, length_eq_zero_iff] at hlen
      exact hne hlen
  obtain ⟨r, hr⟩ := leastNested_isSome s.draft addr (p.branches.zip p.loopStarts) 0 none (.inr hzip)
  simp only [assemble, get_bind_apply, hspurious, hr]
  refine ⟨h.tasks, h.fits.foldl_endWithGoto _ addr _, fun a q hq => ?_⟩
  rw [OrdMap.get?_erase] at hq
  split at hq
  · cases hq
  · exact h.pending a q hq

/-- A task comes first to a node that waits for several predecessors, and is none of them. -/
def Unasked (subj : Subject) (scope : Scope) (source : Option Int) (addr : Int) (s : Build) :
    Prop :=
  1 < (subj.graph.preds.getD addr []).length ∧ s.pending.get? addr = none ∧
    1 < (scope.awaited subj.graph subj.nest addr).length ∧
    ∀ p, source = some p → p ∉ scope.awaited subj.graph subj.nest addr

theorem gather_does (hspurious : subj.nest.spurious = []) (h : s.Ready subj) (scope : Scope)
    (b : Nat) (source : Option Int) (addr : Int) :
    Does (fun _ s' => s'.Ready subj ∧ ¬ Unasked subj scope source addr s)
      (fun e => e = .notAwaited addr ∧ Unasked subj scope source addr s)
        (gather subj scope b source addr s) := by
  unfold gather
  split
  · rename_i hpreds
    simp only [rendezvous, get_bind_apply]
    cases hp : s.pending.get? addr with
    | some p =>
      have hnot : ¬ Unasked subj scope source addr s := by
        rintro ⟨-, hnone, -⟩
        rw [hp] at hnone
        cases hnone
      obtain ⟨hne, hlen⟩ := h.pending addr p hp
      have hne' : (p.addWay b source scope.start).branches ≠ [] := by simp [Pending.addWay]
      have hlen' : (p.addWay b source scope.start).branches.length =
          (p.addWay b source scope.start).loopStarts.length := by simp [Pending.addWay, hlen]
      dsimp only
      unfold putOffAgain
      split
      · exact (assemble_does hspurious h addr hne' hlen').mono (fun _ _ hs' => ⟨hs', hnot⟩)
          fun _ hf => hf.elim
      · exact ⟨h.putOff addr hne' hlen', hnot⟩
    | none =>
      dsimp only [firstArrival]
      split
      · rename_i hlen
        cases source with
        | none =>
          dsimp only
          exact ⟨rfl, hpreds, hp, hlen, fun p hp => by cases hp⟩
        | some q =>
          dsimp only
          split
          · rename_i hq
            exact ⟨h.putOff addr (by simp) (by simp), fun hun => hun.2.2.2 q rfl hq⟩
          · rename_i hq
            exact ⟨rfl, hpreds, hp, hlen, fun p hp => Option.some.inj hp ▸ hq⟩
      · rename_i hlen
        exact ⟨h, fun hun => hlen hun.2.2.1⟩
  · rename_i hpreds
    exact ⟨h, fun hun => hpreds hun.1⟩

/-! ## Conditional jumps -/

/-- A node is placed as a branch in two: neither way leaves the loop in force, and none leads to the
other way of the condition in force if that is to be written as a further condition. -/
def BranchesInTwo (subj : Subject) (scope : Scope) (otherWay : Option Int) (addr : Int) : Prop :=
  ∃ next target, subj.graph.succs.get? addr = some [next, target] ∧
    (scope.loop.isSome = true → scope.nodes.holds next = true ∧ scope.nodes.holds target = true) ∧
    (subj.furtherConditions = true → otherWay ≠ some next ∧ otherWay ≠ some target)

/-- A node branches in two, and the search for the place where its ways meet fails. -/
def Unmet (subj : Subject) (scope : Scope) (otherWay : Option Int) (addr : Int) (memo : PathMemo) :
    Prop :=
  BranchesInTwo subj scope otherWay addr ∧
    ∃ e, subj.graph.joinPoint subj.nest scope memo addr = .error e

/-- A fork as it comes about: its ways are those of the graph, and the loops that are open there are
recorded. -/
structure Fork.Real (subj : Subject) (f : Fork) : Prop where
  succs : subj.graph.succs.get? f.jump.addr = some [f.next, f.target]
  frames : ∀ frame ∈ f.task.loops, frame.id ∈ subj.nest.tables.all.keys

variable {f : Fork} {loops : List LoopFrame} {insns : List Insn}

theorem Fork.Real.next (h : f.Real subj) : subj.graph.next f.jump.addr = [f.next, f.target] :=
  getD_of_get? h.succs

theorem Fork.Real.branchesInTwo_iff (hf : f.Real subj) {scope : Scope} :
    BranchesInTwo subj scope f.task.otherWay f.jump.addr ↔ f.Parts subj scope := by
  have hout : ∀ a, isOutside scope a = false ↔
      (scope.loop.isSome = true → scope.nodes.holds a = true) := by
    intro a
    unfold isOutside
    cases scope.loop.isSome <;> simp
  constructor
  · rintro ⟨next, target, hs, hstay, hway⟩
    rw [hf.succs] at hs
    cases hs
    rintro a (rfl | rfl)
    · exact ⟨(hout _).mpr fun h => (hstay h).1, fun h => (hway h).1⟩
    · exact ⟨(hout _).mpr fun h => (hstay h).2, fun h => (hway h).2⟩
  · intro h
    obtain ⟨hnext, hnext'⟩ := h f.next (.inl rfl)
    obtain ⟨htarget, htarget'⟩ := h f.target (.inr rfl)
    exact ⟨f.next, f.target, hf.succs, fun h => ⟨(hout _).mp hnext h, (hout _).mp htarget h⟩,
      fun h => ⟨hnext' h, htarget' h⟩⟩

theorem Fork.Ways.next {out inside : Int} (h : f.Ways out inside) (hf : f.Real subj) :
    subj.graph.next f.jump.addr = [out, inside] ∨ subj.graph.next f.jump.addr = [inside, out] := by
  rw [hf.next]
  obtain ⟨rfl, rfl⟩ | ⟨rfl, rfl⟩ := h
  · exact .inl rfl
  · exact .inr rfl

/-- A way leaves the loop in force exactly if the innermost open loop does not have its node. -/
theorem leaves_iff {addr : Int} :
    isOutside (scopeOf subj loops) addr = true ↔
      ∃ frame outer, loops = frame :: outer ∧ addr ∉ subj.nest.tables.all.getD frame.id [] := by
  cases loops with
  | nil => simp [isOutside, scopeOf]
  | cons frame outer => simp [isOutside, scopeOf, Region.holds]

theorem Forked.does (hsubj : subj.Sound) (h : s.Ready subj) (hf : f.Real subj)
    {r : EStateM.Result Fault Build Unit} (hforked : Forked subj (scopeOf subj f.task.loops) f s r)
    (htop : ∀ frame outer, f.task.loops = frame :: outer →
      f.jump.addr ∈ subj.nest.tables.all.getD frame.id []) :
    Does (fun _ s' => s'.Ready subj ∧
        ¬ Unmet subj (scopeOf subj f.task.loops) f.task.otherWay f.jump.addr s.memo)
      (fun e => (∃ a, e = .notAwaited a) ∧
        Unmet subj (scopeOf subj f.task.loops) f.task.otherWay f.jump.addr s.memo) r := by
  have htask : ∀ {b addr otherWay}, Task.Rooted subj.nest { f.way (some b) addr with otherWay } :=
    ⟨hf.frames, fun hb => by cases hb⟩
  cases hforked with
  | stray hnext htarget =>
    -- Not both ways leave a loop: one of them goes round.
    obtain ⟨frame, outer, hloops, hnext⟩ := leaves_iff.mp hnext
    obtain ⟨_, _, hloops', htarget⟩ := leaves_iff.mp htarget
    rw [hloops] at hloops'
    cases hloops'
    obtain ⟨nodes, hnodes⟩ := mem_keys.mp (hf.frames frame (hloops ▸ .head _))
    have htop := htop frame outer hloops
    rw [getD_of_get? hnodes] at hnext htarget htop
    obtain ⟨y, hy, hedge⟩ := (hsubj.tables.all_round frame.id nodes hnodes).next _ htop
    rw [Graph.Edge, hf.next] at hedge
    rcases mem_pair.mp hedge with rfl | rfl
    · exact absurd hy hnext
    · exact absurd hy htarget
  | @leaves cond out inside ways hout =>
    obtain ⟨frame, outer, hloops, hleft⟩ := leaves_iff.mp hout
    have hway : (f.way (s.draft.parent f.branch) out).Rooted subj.nest :=
      ⟨hf.frames, fun _ => ⟨frame, outer, hloops, hleft⟩⟩
    refine ⟨((h.push hway).push htask).addLeaf f.branch ⟨inside, ways.next hf⟩ rfl, fun hun => ?_⟩
    have hin := (hf.branchesInTwo_iff.mp hun.1 out (ways.imp And.left And.left)).1
    exact absurd (hin.symm.trans hout) Bool.false_ne_true
  | @narrows cond out inside ways hfurther hother =>
    have hadd := h.addLeaf f.branch (n := .andIf f.jump cond inside f.slot) ⟨out,
      (ways.next hf).symm⟩ rfl
    refine ⟨((hadd.newBranch none Draft.shadowLevel (-1)).push htask).push htask, fun hun => ?_⟩
    exact (hf.branchesInTwo_iff.mp hun.1 out (ways.imp And.left And.left)).2 hfurther hother
  | unmet hparts hjoin =>
    have hmeets := Graph.joinPoint_meets hsubj.graph subj.nest (scopeOf subj f.task.loops) s.memo
      f.jump.addr
    rw [hjoin] at hmeets
    obtain ⟨_, a, hfault, -⟩ := hmeets
    exact ⟨⟨a, hfault⟩, hf.branchesInTwo_iff.mpr hparts, _, hjoin⟩
  | @parted found joint memo hparts hjoin _ =>
    refine ⟨?_, ?_⟩
    · have h₁ := h.note s.visited s.labels memo
      have h₂ := (h₁.newBranch (some f.branch) (f.level + 1)
        (s.draft.nodes f.branch).length).newBranch (some f.branch)
        (f.level + 1) (s.draft.nodes f.branch).length
      have hnext : (f.half s.draft.size f.next).Rooted subj.nest := htask
      have htaken : (f.half (f.takenBranch joint (s.draft.size + 1)) f.target).Rooted subj.nest :=
        htask
      have h₃ := ((h₂.foresees (scopeOf subj f.task.loops) f.branch joint).push hnext).push htaken
      refine h₃.withDraft (h₂.fits.add f.branch ⟨f.next, f.target, hf.next⟩ fun c hc => ?_)
      -- Both branches have recorded the place where the fork is put.
      simp only [Draft.nodes_newBranch]
      rcases mem_pair.mp hc with rfl | rfl
      · exact (Draft.at_newBranch _ _ _).newBranch _ _ _
      · have hat := Draft.at_newBranch (d := (s.draft.newBranch (some f.branch) (f.level + 1)
          (s.draft.nodes f.branch).length).2) f.branch (f.level + 1) (s.draft.nodes f.branch).length
        rwa [Draft.size_newBranch] at hat
    · rintro ⟨-, e, he⟩
      rw [hjoin] at he
      cases he

/-! ## Placing a node -/

theorem placeNode_does (hsubj : subj.Sound) (h : s.Ready subj) (b level : Nat)
    (hnode : subj.graph.nodes.get? t.addr = some insns)
    (hframes : ∀ frame ∈ t.loops, frame.id ∈ subj.nest.tables.all.keys)
    (htop : ∀ frame outer, t.loops = frame :: outer →
      t.addr ∈ subj.nest.tables.all.getD frame.id []) :
    Does (fun _ s' => s'.Ready subj ∧ ¬ Unmet subj (scopeOf subj t.loops) t.otherWay t.addr s.memo)
      (fun e => (∃ a, e = .notAwaited a) ∧
        Unmet subj (scopeOf subj t.loops) t.otherWay t.addr s.memo)
      (placeNode subj (scopeOf subj t.loops) b level t insns s) := by
  have hblock : (subj.graph.next t.addr).length ≤ 1 → (DraftNode.block insns).Of subj.graph :=
    fun hlen => ⟨t.addr, hnode, hlen⟩
  have hunmet : ∀ {l : Option (List Int)}, subj.graph.succs.get? t.addr = l →
      (∀ next target, l ≠ some [next, target]) →
      ¬ Unmet subj (scopeOf subj t.loops) t.otherWay t.addr s.memo := by
    rintro l hl hne ⟨⟨next, target, hs, -⟩, -⟩
    exact hne next target (hl ▸ hs)
  have hput := placeNode_put hsubj.graph (scopeOf subj t.loops) b level s hnode
  generalize placeNode subj (scopeOf subj t.loops) b level t insns s = r at hput ⊢
  cases hput with
  | @stop labels hs =>
    have hlen : (subj.graph.next t.addr).length ≤ 1 := by simp [Graph.next, OrdMap.getD, hs]
    have hleaf := (h.note (t.addr :: s.visited) labels s.memo).addLeaf b (hblock hlen) rfl
    exact ⟨hleaf, hunmet hs fun _ _ h => by cases h⟩
  | @step v hs =>
    have hlen : (subj.graph.next t.addr).length ≤ 1 := by simp [Graph.next, OrdMap.getD, hs]
    have hleaf := (h.note (t.addr :: s.visited) s.labels s.memo).addLeaf b (hblock hlen) rfl
    have htask :
        Task.Rooted subj.nest { t with branch := some b, source := some t.addr, addr := v } :=
      ⟨hframes, fun hb => by cases hb⟩
    exact ⟨hleaf.push htask, hunmet hs fun _ _ h => by cases h⟩
  | @fork jump slot x y _ hjump hs hforked =>
    have hreal : Fork.Real subj ⟨jump, slot, x, y, b, level, t⟩ := ⟨hjump ▸ hs, hframes⟩
    have hfork := hforked.does hsubj (h.note (t.addr :: s.visited) s.labels s.memo) hreal
      (hjump ▸ htop)
    simp only [hjump] at hfork
    exact hfork

/-- The scope that a node is placed in: that of the loop it starts, if it starts one. -/
def scopeAt (subj : Subject) (loops : List LoopFrame) (addr : Int) : Scope :=
  if startsLoop subj (scopeOf subj loops) addr then
    ⟨some ⟨(scopeOf subj loops).start, addr⟩, addr,
      some (subj.nest.tables.all.getD ⟨(scopeOf subj loops).start, addr⟩ [])⟩
  else scopeOf subj loops

/-- Where the other way of the condition in force leads, where a node is placed: a loop is under no
condition. -/
def otherWayAt (subj : Subject) (loops : List LoopFrame) (t : Task) : Option Int :=
  if startsLoop subj (scopeOf subj loops) t.addr then none else t.otherWay

theorem Build.Ready.withoutGoto (h : s.Ready subj) (b : Nat) (addr : Int) :
    Build.Ready subj { s with draft := withoutGoto s.draft b addr } := by
  unfold Structuring.withoutGoto
  split
  · exact h.withDraft (h.fits.dropLast b)
  · exact h

theorem Build.Ready.opensLoop (h : s.Ready subj) (scope : Scope) (b level : Nat) (addr : Int) :
    (opensLoop subj scope b level addr s).Ready subj := by
  have hbody := (h.note s.visited (s.labels.insert addr ("loop_0x" ++ Text.hexSigned 1 addr))
    s.memo).newBranch (some b) level (s.draft.nodes b).length
  refine hbody.withDraft (hbody.fits.add b trivial fun c hc => ?_)
  rw [mem_singleton.mp hc, Draft.nodes_newBranch]
  exact Draft.at_newBranch _ _ _

theorem settle_does (hsubj : subj.Sound) (h : s.Ready subj) (b level : Nat)
    (hnode : subj.graph.nodes.get? t.addr = some insns)
    (hframes : ∀ frame ∈ loops, frame.id ∈ subj.nest.tables.all.keys)
    (htop : ∀ frame outer, loops = frame :: outer →
      t.addr ∈ subj.nest.tables.all.getD frame.id []) :
    Does (fun _ s' => s'.Ready subj ∧
        ¬ Unmet subj (scopeAt subj loops t.addr) (otherWayAt subj loops t) t.addr s.memo)
      (fun e => (∃ a, e = .notAwaited a) ∧
        Unmet subj (scopeAt subj loops t.addr) (otherWayAt subj loops t) t.addr s.memo)
      (settle subj (scopeOf subj loops) b level t loops insns s) := by
  have h₁ := Build.Ready.withoutGoto h b t.addr
  rw [settle_eq]
  unfold scopeAt otherWayAt
  split
  · rename_i hstarts
    have hmem : (⟨(scopeOf subj loops).start, t.addr⟩ : LoopId) ∈ subj.nest.tables.all.keys :=
      contains_iff.mp (Bool.and_eq_true_iff.mp hstarts).1
    obtain ⟨nodes, hnodes⟩ := mem_keys.mp hmem
    let loop : LoopFrame := ⟨b, (scopeOf subj loops).start, t.addr⟩
    refine placeNode_does (t := { t with loops := loop :: loops, otherWay := none }) hsubj
      (Build.Ready.opensLoop h₁ (scopeOf subj loops) b (level + 1) t.addr) _ (level + 1) hnode ?_ ?_
    · exact forall_mem_cons.mpr ⟨hmem, hframes⟩
    · intro frame outer heq
      cases heq
      rw [getD_of_get? hnodes]
      exact (hsubj.tables.all_round _ nodes hnodes).start_mem
  · exact placeNode_does (t := { t with loops }) hsubj h₁ b level hnode hframes htop

/-! ## Steps -/

/-- Leaving loops gives a branch, and the innermost loop that is left has the node. -/
theorem leaveLoops_eq_ok {addr : Int} : ∀ {loops : List LoopFrame} {b : Option Nat},
    (∀ f ∈ loops, f.id ∈ subj.nest.tables.all.keys) →
    (b = none → ∃ f outer, loops = f :: outer ∧ addr ∉ subj.nest.tables.all.getD f.id []) →
    ∃ c rest, leaveLoops subj addr loops b = .ok (some c, rest) ∧
      (∀ f ∈ rest, f.id ∈ subj.nest.tables.all.keys) ∧
      ∀ f outer, rest = f :: outer → addr ∈ subj.nest.tables.all.getD f.id [] := by
  intro loops
  induction loops with
  | nil =>
    intro b hframes hb
    cases b with
    | none =>
      obtain ⟨f, outer, heq, -⟩ := hb rfl
      cases heq
    | some c => exact ⟨c, [], rfl, hframes, fun f outer h => by cases h⟩
  | cons frame outer ih =>
    intro b hframes hb
    obtain ⟨nodes, hnodes⟩ := mem_keys.mp (hframes frame (.head _))
    have hgetD : subj.nest.tables.all.getD frame.id [] = nodes := getD_of_get? hnodes
    simp only [leaveLoops, hnodes]
    by_cases hmem : addr ∈ nodes
    · rw [if_pos hmem]
      cases b with
      | none =>
        obtain ⟨f, outer', heq, hout⟩ := hb rfl
        cases heq
        exact absurd (hgetD ▸ hmem) hout
      | some c =>
        refine ⟨c, frame :: outer, rfl, hframes, fun f outer' heq => ?_⟩
        cases heq
        exact hgetD ▸ hmem
    · rw [if_neg hmem]
      exact ih (forall_mem_cons.mp hframes).2 fun h => by cases h

/-- A task that cannot be dealt with: it is followed to a node that has not been placed, and comes
there first though it is not waited for, or the ways that part there cannot be followed to where
they meet. -/
def Stuck (subj : Subject) (s : Build) (t : Task) : Prop :=
  turnsAway subj s.pending t = false ∧ t.addr ∉ s.visited ∧
    ∃ b loops, leaveLoops subj t.addr t.loops t.branch = .ok (some b, loops) ∧
      (Unasked subj (scopeOf subj loops) t.source t.addr s ∨
        ∃ best s₁, gather subj (scopeOf subj loops) b t.source t.addr s = .ok (some best) s₁ ∧
          Unmet subj (scopeAt subj loops t.addr) (otherWayAt subj loops t) t.addr s₁.memo)

theorem arrive_does (hsubj : subj.Sound) (h : s.Ready subj)
    (haway : turnsAway subj s.pending t = false) (hnode : subj.graph.nodes.get? t.addr = some insns)
    {b : Nat} (hleave : leaveLoops subj t.addr t.loops t.branch = .ok (some b, loops))
    (hframes : ∀ f ∈ loops, f.id ∈ subj.nest.tables.all.keys)
    (htop : ∀ f outer, loops = f :: outer → t.addr ∈ subj.nest.tables.all.getD f.id []) :
    Does (fun _ s' => s'.Ready subj ∧ ¬ Stuck subj s t)
      (fun e => (∃ a, e = .notAwaited a) ∧ Stuck subj s t) (arrive subj t b loops insns s) := by
  -- Which branch and which loops are left is fixed by the task.
  have hstuck : ∀ {b' : Nat} {loops' : List LoopFrame},
      leaveLoops subj t.addr t.loops t.branch = .ok (some b', loops') → b' = b ∧
      loops' = loops := by
    intro b' loops' h'
    rw [hleave] at h'
    cases h'
    exact ⟨rfl, rfl⟩
  unfold arrive
  refine Does.bind (P := fun r s' => r = s ∧ s' = s) ⟨rfl, rfl⟩ ?_
  rintro _ _ ⟨rfl, rfl⟩
  dsimp only
  split
  · rename_i hmem
    exact (referBack_does hsubj h (scopeOf subj loops) b t.addr).mono (fun _ s' hs' =>
      ⟨hs', fun hst => hst.2.1 hmem⟩) fun _ hf => hf.elim
  · rename_i hnew
    have hgather := gather_does hsubj.spurious h (scopeOf subj loops) b t.source t.addr
    simp only [bind, EStateM.bind]
    cases hgath : gather subj (scopeOf subj loops) b t.source t.addr _ with
    | error e s₁ =>
      rw [hgath] at hgather
      exact ⟨⟨_, hgather.1⟩, haway, hnew, b, loops, hleave, .inl hgather.2⟩
    | ok r s₁ =>
      rw [hgath] at hgather
      obtain ⟨hready₁, hasked⟩ := hgather
      cases r with
      | none =>
        refine ⟨hready₁, ?_⟩
        rintro ⟨-, -, b', loops', hleave', hun | ⟨best, s₂, hgath', -⟩⟩
        · obtain ⟨-, rfl⟩ := hstuck hleave'
          exact hasked hun
        · obtain ⟨rfl, rfl⟩ := hstuck hleave'
          rw [hgath] at hgath'
          cases hgath'
      | some best =>
        refine (settle_does hsubj hready₁ best _ hnode hframes htop).mono ?_ ?_
        · rintro _ s' ⟨hready', hmet⟩
          refine ⟨hready', ?_⟩
          rintro ⟨-, -, b', loops', hleave', hun | ⟨best', s₂, hgath', hunmet⟩⟩
          · obtain ⟨-, rfl⟩ := hstuck hleave'
            exact hasked hun
          · obtain ⟨rfl, rfl⟩ := hstuck hleave'
            rw [hgath] at hgath'
            cases hgath'
            exact hmet hunmet
        · rintro _ ⟨hfault, hunmet⟩
          exact ⟨hfault, haway, hnew, b, loops, hleave, .inr ⟨best, s₁, hgath, hunmet⟩⟩

/-- A task is dealt with, and the structuring stays ready, exactly if the task is not stuck. It
fails only by coming first, though it is not waited for, to a node that waits: its own, or one that
the search for the end of a fork comes to. -/
theorem place_does (hsubj : subj.Sound) (h : s.Ready subj) (ht : t.Rooted subj.nest)
    (hnode : t.addr ∈ subj.graph.nodes.keys) :
    Does (fun _ s' => s'.Ready subj ∧ ¬ Stuck subj s t)
      (fun e => (∃ a, e = .notAwaited a) ∧ Stuck subj s t) (place subj t s) := by
  obtain ⟨insns, hinsns⟩ := mem_keys.mp hnode
  unfold place
  refine Does.bind (P := fun r s' => r = s ∧ s' = s) ⟨rfl, rfl⟩ ?_
  rintro _ _ ⟨rfl, rfl⟩
  split
  · rename_i haway
    refine ⟨h, fun hst => ?_⟩
    rw [hst.1] at haway
    cases haway
  · rename_i haway
    obtain ⟨b, loops, hleave, hframes, htop⟩ := leaveLoops_eq_ok ht.frames ht.branch
    rw [hinsns]
    dsimp only
    rw [hleave]
    exact arrive_does hsubj h (Bool.not_eq_true _ ▸ haway) hinsns hleave hframes htop

/-! ## Runs -/

variable {s₀ : Build}

theorem ready_start (subj : Subject) (labels : OrdMap Int String) (memo : PathMemo) :
    (Build.start subj.graph.entry labels memo).Ready subj where
  tasks t ht := by
    rw [mem_singleton.mp ht]
    exact ⟨forall_mem_nil _, fun hb => by cases hb⟩
  fits := Draft.fits_start subj.graph
  pending a p hp := by cases hp

/-- A structuring on its way that can go on: it accounts for all code and is ready. -/
structure OnWay (subj : Subject) (s₀ s : Build) : Prop where
  run : Run subj s₀ s
  accounts : Accounts subj s₀ s
  ready : s.Ready subj

theorem OnWay.start (hsubj : subj.Sound) (labels : OrdMap Int String) (memo : PathMemo) :
    OnWay subj (Build.start subj.graph.entry labels memo)
      (Build.start subj.graph.entry labels memo) :=
  ⟨.refl, Accounts.start subj hsubj.graph labels memo, ready_start subj labels memo⟩

/-- What becomes of the next task. -/
theorem OnWay.place_does (hsubj : subj.Sound) (h : OnWay subj s₀ s) {rest : List Task}
    (htasks : s.tasks = t :: rest) :
    Does (fun _ s' => OnWay subj s₀ s' ∧ ¬ Stuck subj { s with tasks := rest } t)
      (fun e => (∃ a, e = .notAwaited a) ∧ Stuck subj { s with tasks := rest } t)
      (place subj t { s with tasks := rest }) := by
  have hmem : t ∈ s.tasks := htasks ▸ .head _
  have hready : Build.Ready subj { s with tasks := rest } :=
    ⟨fun t' ht' => h.ready.tasks t' (htasks ▸ mem_cons_of_mem t ht'), h.ready.fits, h.ready.pending⟩
  have hdoes := Structuring.place_does hsubj hready (h.ready.tasks t hmem) (h.accounts.tasks t hmem)
  cases hplace : place subj t { s with tasks := rest } with
  | error e s' =>
    rw [hplace] at hdoes
    exact hdoes
  | ok r s' =>
    rw [hplace] at hdoes
    have hstep : Step subj s s' := ⟨t, rest, htasks, hplace⟩
    exact ⟨⟨h.run.tail hstep, h.accounts.step hsubj.graph h.run hstep, hdoes.1⟩, hdoes.2⟩

theorem OnWay.of_run (hsubj : subj.Sound) (h : OnWay subj s₀ s) (hrun : Run subj s s') :
    OnWay subj s₀ s' := by
  induction hrun with
  | refl => exact h
  | tail _ hstep ih =>
    obtain ⟨t, rest, htasks, hplace⟩ := hstep
    have hdoes := ih.place_does hsubj htasks
    rw [hplace] at hdoes
    exact hdoes.1

/-- What is left to do: the tasks, and two more for every node that has not been placed. -/
def load (subj : Subject) (s : Build) : Nat :=
  s.tasks.length + 2 * (subj.graph.nodes.size - s.visited.length)

/-- Every step leaves less to do. -/
theorem load_step (hg : subj.graph.WellFormed) (h : Accounts subj s₀ s) (h' : Accounts subj s₀ s')
    (hstep : Step subj s s') : load subj s' < load subj s := by
  obtain ⟨t, rest, htasks, hplace⟩ := hstep
  obtain ⟨seen, more, ha⟩ := place_deals hg h.bounded htasks hplace
  -- A node that is placed has two successors at most.
  have hmore : more.length ≤ 2 * seen.length := by
    rw [← length_map (·.addr), ha.follow.length_eq, length_flatMap]
    have hnext : ∀ n ∈ seen.map fun a => (subj.graph.next a).length, n ≤ 2 := by
      intro n hn
      obtain ⟨a, -, rfl⟩ := mem_map.mp hn
      rw [Graph.next, OrdMap.getD]
      cases hs : subj.graph.succs.get? a with
      | none => exact Nat.zero_le 2
      | some l => exact (hg.succs a l hs).2.2
    simpa [Nat.mul_comm] using sum_le_card_nsmul _ 2 hnext
  have hsize : s'.visited.length ≤ subj.graph.nodes.size := by
    rw [← length_keys]
    exact (h'.nodup.subperm h'.nodes).length_le
  rw [ha.visited, length_append] at hsize
  rw [load, load, ha.visited, ha.tasks, htasks, length_append, length_append, length_cons]
  dsimp only at hsize ⊢
  omega

/-- With steps enough, placing all nodes ends with no tasks left or at a task that fails. -/
theorem OnWay.finishes (hsubj : subj.Sound) (h : OnWay subj s₀ s) {fuel : Nat}
    (hload : load subj s < fuel) :
    Does (fun _ s' => OnWay subj s₀ s' ∧ s'.tasks = [])
      (fun e => ∃ s' t rest s'', OnWay subj s₀ s' ∧
      s'.tasks = t :: rest ∧ place subj t { s' with tasks := rest } = .error e s'')
        (placeAll subj fuel s) := by
  have hends := placeAll_finishes subj fuel s
  generalize placeAll subj fuel s = result at hends ⊢
  cases hends with
  | done hrun hdone => exact ⟨h.of_run hsubj hrun, hdone⟩
  | failed hrun htasks hplace => exact ⟨_, _, _, _, h.of_run hsubj hrun, htasks, hplace⟩
  | bound hlong =>
    have hle := hlong (load subj) fun s₁ s₂ hrun hstep => by
      have h₁ := h.of_run hsubj hrun
      exact load_step hsubj.graph h₁.accounts (h₁.of_run hsubj (.single hstep)).accounts hstep
    omega

theorem step_rightUnique (subj : Subject) : Relator.RightUnique (Step subj) := by
  intro s s₁ s₂ h₁ h₂
  obtain ⟨t, rest, htasks, hplace⟩ := h₁
  obtain ⟨t', rest', htasks', hplace'⟩ := h₂
  rw [htasks] at htasks'
  cases htasks'
  rw [hplace] at hplace'
  cases hplace'
  rfl

/-- A structuring fails exactly if it comes to a task that is stuck. -/
theorem build_fails_iff (hsubj : subj.Sound) (labels : OrdMap Int String) (memo : PathMemo) :
    (∃ e s, build subj (Build.start subj.graph.entry labels memo) = .error e s) ↔
      ∃ s t rest, Run subj (Build.start subj.graph.entry labels memo) s ∧ s.tasks = t :: rest ∧
        Stuck subj { s with tasks := rest } t := by
  have h₀ := OnWay.start hsubj labels memo
  constructor
  · rintro ⟨e, s, hfail⟩
    have hload : load subj (Build.start subj.graph.entry labels memo) < 2 *
        subj.graph.nodes.size + 3 := by
      simp only [load, Build.start, length_singleton, length_nil]
      omega
    have hends := h₀.finishes hsubj hload
    rw [build] at hfail
    rw [hfail] at hends
    obtain ⟨s₁, t, rest, s₂, h₁, htasks, hplace⟩ := hends
    have hdoes := h₁.place_does hsubj htasks
    rw [hplace] at hdoes
    exact ⟨s₁, t, rest, h₁.run, htasks, hdoes.2⟩
  · rintro ⟨s, t, rest, hrun, htasks, hstuck⟩
    cases hbuild : build subj (Build.start subj.graph.entry labels memo) with
    | error e s' => exact ⟨e, s', rfl⟩
    | ok r s' =>
      exfalso
      obtain ⟨hrun', hdone⟩ := run_of_placeAll hbuild
      -- There is one run only; it ends in `s'` and passes through `s`, where it could not go on.
      rcases Relation.ReflTransGen.total_of_right_unique (step_rightUnique subj) hrun hrun'
        with hon | hback
      · rcases Relation.ReflTransGen.cases_head hon with rfl | ⟨s₁, ⟨t', rest', htasks', hplace⟩, -⟩
        · rw [hdone] at htasks
          cases htasks
        · rw [htasks] at htasks'
          cases htasks'
          have hdoes := (h₀.of_run hsubj hrun).place_does hsubj htasks
          rw [hplace] at hdoes
          exact hdoes.2 hstuck
      · rcases Relation.ReflTransGen.cases_head hback with rfl | ⟨s₁, ⟨t', rest', htasks', -⟩, -⟩
        · rw [hdone] at htasks
          cases htasks
        · rw [hdone] at htasks'
          cases htasks'

end Structuring

end Decompiler
