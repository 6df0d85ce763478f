import Decompiler.Proofs.Blocks
import Decompiler.Proofs.DraftNodes
/-!
# What one step of a structuring does

A step takes the next task. It turns it away, leads to where its node stands, puts the node off, or
places the node and adds a task for each of its successors. `place_cases` says so once; everything
about whole runs follows from it.

Along a step the draft only grows: `Adds s s' keys addrs` says that nothing but the code `keys` was
added to the draft and nothing but tasks for `addrs` to the tasks.
-/

namespace Decompiler

open List OrdMap

variable {insns : List Insn}

/-! ## Branch numbers -/

/-- The branches that a task names are among the first `n`. -/
structure Task.Within (t : Task) (n : Nat) : Prop where
  branch : ∀ b, t.branch = some b → b < n
  loops : ∀ f ∈ t.loops, f.branch < n

theorem Task.Within.mono {t : Task} {n m : Nat} (h : t.Within n) (hnm : n ≤ m) : t.Within m where
  branch b hb := lt_of_lt_of_le (h.branch b hb) hnm
  loops f hf := lt_of_lt_of_le (h.loops f hf) hnm

/-- The draft is well formed, and all branches that tasks and nodes put off name are there. -/
structure Build.Bounded (s : Build) : Prop where
  draft : s.draft.WellFormed
  tasks : ∀ t ∈ s.tasks, t.Within s.draft.size
  pending : ∀ a p, s.pending.get? a = some p → ∀ b ∈ p.branches, b < s.draft.size

namespace Structuring

variable {s s' s'' : Build} {keys keys' addrs addrs' : List Int} {b level n : Nat} {t : Task}
  {addr : Int} {p : Pending}
  {subj : Subject} {scope : Scope} {f : Fork} {d : Draft} {r : Option Nat}

/-- From `s` to `s'` the code `keys` was added to the draft and tasks for `addrs` were added to the
tasks. -/
structure Adds (s s' : Build) (keys addrs : List Int) : Prop where
  bounded : s'.Bounded
  size : s.draft.size ≤ s'.draft.size
  keys : s'.draft.allKeys.Perm (keys ++ s.draft.allKeys)
  visited : s'.visited = s.visited
  tasks : ∃ new, s'.tasks = new ++ s.tasks ∧ (new.map (·.addr)).Perm addrs
  pending : ∀ a ∈ s.pending.keys, a ∈ s'.pending.keys

theorem Adds.refl (h : s.Bounded) : Adds s s [] [] where
  bounded := h
  size := le_rfl
  keys := .refl _
  visited := rfl
  tasks := ⟨[], rfl, .refl _⟩
  pending _ ha := ha

theorem Adds.trans (h : Adds s s' keys addrs) (h' : Adds s' s'' keys' addrs') :
    Adds s s'' (keys' ++ keys) (addrs' ++ addrs) where
  bounded := h'.bounded
  size := h.size.trans h'.size
  keys := by
    refine h'.keys.trans ?_
    rw [append_assoc]
    exact Perm.append_left _ h.keys
  visited := h'.visited.trans h.visited
  tasks := by
    obtain ⟨new, hnew, hperm⟩ := h.tasks
    obtain ⟨new', hnew', hperm'⟩ := h'.tasks
    refine ⟨new' ++ new, by rw [hnew', hnew, append_assoc], ?_⟩
    rw [map_append]
    exact hperm'.append hperm
  pending a ha := h'.pending a (h.pending a ha)

theorem Adds.perm (h : Adds s s' keys addrs) (hk : keys.Perm keys') (ha : addrs.Perm addrs') :
    Adds s s' keys' addrs' := by
  obtain ⟨new, hnew, hperm⟩ := h.tasks
  exact { h with keys := h.keys.trans (hk.append_right _), tasks := ⟨new, hnew, hperm.trans ha⟩ }

/-! ## The small operations -/

section

variable (h : s.Bounded)
include h

/-- Replacing the draft by one that is not smaller. -/
theorem draft_adds (hd : d.WellFormed) (hsize : s.draft.size ≤ d.size)
    (hkeys : d.allKeys.Perm (keys ++ s.draft.allKeys)) : Adds s { s with draft := d } keys [] where
  bounded :=
    { draft := hd
      tasks := fun t ht => (h.tasks t ht).mono hsize
      pending := fun a p hp b hb => lt_of_lt_of_le (h.pending a p hp b hb) hsize }
  size := hsize
  keys := hkeys
  visited := rfl
  tasks := ⟨[], rfl, .refl _⟩
  pending _ ha := ha

/-- Adding a construct whose branches are fresh. -/
theorem put_adds (hb : b < s.draft.size) {n : DraftNode} (hn : n.refs.Nodup)
    (hrefs : ∀ c ∈ n.refs, b < c ∧ s.draft.Fresh c) :
    Adds s { s with draft := s.draft.add b n } n.key?.toList [] :=
  draft_adds h (h.draft.add hb hn hrefs) (Draft.size_add b n).ge (Draft.allKeys_add hb n)

/-- Adding a node that holds no branches. -/
theorem put_adds_of_refs_nil (hb : b < s.draft.size) {n : DraftNode} (hn : n.refs = []) :
    Adds s { s with draft := s.draft.add b n } n.key?.toList [] :=
  put_adds h hb (by rw [hn]; exact nodup_nil) (by rw [hn]; simp)

theorem newBranch_adds {q : Option Nat} (hq : ∀ b, q = some b → b < s.draft.size) (level : Nat)
    (place : Int) : Adds s { s with draft := (s.draft.newBranch q level place).2 } [] [] := by
  refine draft_adds h (h.draft.newBranch hq level place) (by simp) ?_
  rw [Draft.allKeys_newBranch]
  exact .refl _

theorem push_adds (ht : t.Within s.draft.size) :
    Adds s { s with tasks := t :: s.tasks } [] [t.addr] :=
  ⟨⟨h.draft, forall_mem_cons.mpr ⟨ht, h.tasks⟩, h.pending⟩, le_rfl, .refl _, rfl,
    ⟨[t], rfl, .refl _⟩, fun _ ha => ha⟩

/-- Giving labels and keeping answers about paths. -/
theorem note_adds (labels : OrdMap Int String) (memo : PathMemo) :
    Adds s { s with labels, memo } [] [] :=
  ⟨{ h with }, le_rfl, .refl _, rfl, ⟨[], rfl, .refl _⟩, fun _ ha => ha⟩

theorem insert_pending_adds (hp : ∀ b ∈ p.branches, b < s.draft.size) :
    Adds s { s with pending := s.pending.insert addr p } [] [] := by
  refine ⟨{ h with pending := ?_ }, le_rfl, .refl _, rfl, ⟨[], rfl, .refl _⟩, ?_⟩
  · intro a q hq
    rcases of_get?_insert hq with ⟨-, rfl⟩ | hq
    · exact hp
    · exact h.pending a q hq
  · exact fun a ha => mem_keys_insert.mpr (.inr ha)

end

/-! ## Conditional jumps -/

/-- A way out of a fork, and the other one. -/
def Fork.Ways (f : Fork) (out inside : Int) : Prop :=
  out = f.next ∧ inside = f.target ∨ out = f.target ∧ inside = f.next

theorem Fork.Ways.perm {out inside : Int} (h : f.Ways out inside) :
    [inside, out].Perm [f.next, f.target] := by
  obtain ⟨rfl, rfl⟩ | ⟨rfl, rfl⟩ := h
  · exact Perm.swap _ _ _
  · exact .refl _

/-- Whether an address is outside of the loop in force. -/
def isOutside (scope : Scope) (addr : Int) : Bool := scope.loop.isSome && !scope.nodes.holds addr

/-- No way out of a fork leaves the loop in force, and none leads to the other way of a condition in
force if that is to be written as a further condition. -/
def Fork.Parts (subj : Subject) (scope : Scope) (f : Fork) : Prop :=
  ∀ a, a = f.next ∨ a = f.target →
    isOutside scope a = false ∧ (subj.furtherConditions = true → f.task.otherWay ≠ some a)

/-- What waits when the node where the ways of a fork meet is foreseen. -/
def foresees (subj : Subject) (scope : Scope) (b : Nat) (joint : Option Int)
    (pending : OrdMap Int Pending) : OrdMap Int Pending :=
  match joint with
  | none => pending
  | some a =>
    if 1 < (subj.graph.preds.getD a []).length && !pending.contains a then
      pending.insert a ⟨[b], scope.awaited subj.graph subj.nest a, [scope.start]⟩
    else pending

/-- What comes of placing a fork. -/
inductive Forked (subj : Subject) (scope : Scope) (f : Fork) (s : Build) :
    EStateM.Result Fault Build Unit → Prop where
  /-- Both ways leave the loop in force. -/
  | stray (next : isOutside scope f.next = true) (target : isOutside scope f.target = true) :
    Forked subj scope f s (.error (.strayConditional f.jump.addr) s)
  /-- One way leaves the loop in force. -/
  | leaves {cond : Option String} {out inside : Int} (ways : f.Ways out inside)
    (outside : isOutside scope out = true) : Forked subj scope f s (.ok () { s with
      draft := s.draft.add f.branch (.ifGoto f.jump cond out f.slot)
      tasks := f.way (some f.branch) inside :: f.way (s.draft.parent f.branch) out :: s.tasks })
  /-- One way leads to the other way of the condition in force. -/
  | narrows {cond : Option String} {out inside : Int} (ways : f.Ways out inside)
    (further : subj.furtherConditions = true) (otherWay : f.task.otherWay = some out) :
    Forked subj scope f s (.ok () { s with
      draft := ((s.draft.add f.branch (.andIf f.jump cond inside f.slot)).newBranch none
        Draft.shadowLevel (-1)).2
      tasks := f.way (some f.branch) inside :: f.way (some s.draft.size) out :: s.tasks })
  /-- The jump branches in two, but the search for the place where its ways meet fails. -/
  | unmet {e : Fault} (parts : f.Parts subj scope)
    (join : subj.graph.joinPoint subj.nest scope s.memo f.jump.addr = .error e) :
    Forked subj scope f s (.error e s)
  /-- The jump branches in two. -/
  | parted {found joint : Option Int} {memo : PathMemo} (parts : f.Parts subj scope)
    (join : subj.graph.joinPoint subj.nest scope s.memo f.jump.addr = .ok (found, memo))
    (meets : joint = found.filter fun a => (⟨scope.start, a⟩ : LoopId) ∉ subj.nest.spurious) :
    Forked subj scope f s (.ok () { s with
      draft := ((s.draft.newBranch (some f.branch) (f.level + 1)
        (s.draft.nodes f.branch).length).2.newBranch
        (some f.branch) (f.level + 1) (s.draft.nodes f.branch).length).2.add f.branch
          (.ifElse f.jump (joint.getD f.target) s.draft.size (s.draft.size + 1) f.slot)
      tasks := f.half (f.takenBranch joint (s.draft.size + 1)) f.target ::
        f.half s.draft.size f.next :: s.tasks
      pending := foresees subj scope f.branch joint s.pending
      memo })

theorem branchIn_eq (b level : Nat) (s : Build) : branchIn b level s = .ok s.draft.size
    { s with draft := (s.draft.newBranch (some b) level (s.draft.nodes b).length).2 } := rfl

theorem foreseeJoint_eq (joint : Option Int) :
    foreseeJoint subj scope b joint s = .ok ()
      { s with pending := foresees subj scope b joint s.pending } := by
  cases joint with
  | none => rfl
  | some a =>
    show EStateM.Result.ok () (if _ then _ else _) = _
    unfold foresees
    dsimp only
    split <;> rfl

theorem branchInTwo_forked (hparts : f.Parts subj scope) :
    Forked subj scope f s (branchInTwo subj scope f s) := by
  cases hj : subj.graph.joinPoint subj.nest scope s.memo f.jump.addr with
  | error e =>
    have hfind : findJoint subj scope f s = .error e s := by
      simp only [findJoint, get_bind_apply, hj]
      rfl
    rw [branchInTwo, bind_of_error hfind]
    exact .unmet hparts hj
  | ok r =>
    have hfind : findJoint subj scope f s =
        .ok (r.1.filter fun a => (⟨scope.start, a⟩ : LoopId) ∉ subj.nest.spurious)
        { s with memo := r.2 } := by
      simp only [findJoint, get_bind_apply, hj]
      rfl
    have hparted := Forked.parted hparts hj rfl
    rw [branchInTwo, bind_of_ok hfind, bind_of_ok (branchIn_eq ..), bind_of_ok (branchIn_eq ..),
      bind_of_ok (foreseeJoint_eq _)]
    simp only [Draft.nodes_newBranch, Draft.size_newBranch]
    exact hparted

/-- A conditional jump is refused, is placed as an exit or a further condition, or branches in
two. -/
theorem placeFork_forked (subj : Subject) (scope : Scope) (f : Fork) (s : Build) :
    Forked subj scope f s (placeFork subj scope f s) := by
  unfold placeFork
  split
  · rename_i hboth
    obtain ⟨hnext, htarget⟩ := Bool.and_eq_true_iff.mp hboth
    exact .stray hnext htarget
  split
  · rename_i hnext
    exact .leaves (.inl ⟨rfl, rfl⟩) hnext
  split
  · rename_i htarget
    exact .leaves (.inr ⟨rfl, rfl⟩) htarget
  rename_i hnext htarget
  have hnarrow : ∀ {cond : Option String} {out inside : Int}, f.Ways out inside →
      (subj.furtherConditions && decide (f.task.otherWay = some out)) = true →
      Forked subj scope f s (narrow f cond out inside s) := by
    intro cond out inside hways hother
    obtain ⟨hfurther, hother⟩ := Bool.and_eq_true_iff.mp hother
    have hnarrows := @Forked.narrows subj scope f s cond out inside hways hfurther
      (of_decide_eq_true hother)
    rw [← Draft.size_add f.branch (.andIf f.jump cond inside f.slot)] at hnarrows
    exact hnarrows
  split
  · exact hnarrow (.inr ⟨rfl, rfl⟩) (by assumption)
  split
  · exact hnarrow (.inl ⟨rfl, rfl⟩) (by assumption)
  · rename_i hotherTarget hotherNext
    refine branchInTwo_forked ?_
    rintro a (rfl | rfl)
    · exact ⟨Bool.not_eq_true _ ▸ hnext, fun hfurther heq => hotherNext (by simp [hfurther, heq])⟩
    · exact ⟨Bool.not_eq_true _ ▸ htarget, fun hfurther heq =>
        hotherTarget (by simp [hfurther, heq])⟩

/-- The branches that a fork names are among the first `n`. -/
structure Fork.Within (f : Fork) (n : Nat) : Prop where
  branch : f.branch < n
  loops : ∀ frame ∈ f.task.loops, frame.branch < n

theorem Fork.Within.mono {m : Nat} (h : f.Within n) (hnm : n ≤ m) : f.Within m where
  branch := lt_of_lt_of_le h.branch hnm
  loops frame hframe := lt_of_lt_of_le (h.loops frame hframe) hnm

theorem Fork.Within.way (h : f.Within n) {b : Option Nat} (hb : ∀ c, b = some c → c < n)
    (addr : Int) : (f.way b addr).Within n where
  branch := hb
  loops := h.loops

theorem foresees_adds (subj : Subject) (scope : Scope) (h : s.Bounded) (hb : b < s.draft.size)
    (joint : Option Int) :
    Adds s { s with pending := foresees subj scope b joint s.pending } [] [] := by
  unfold foresees
  split
  · exact Adds.refl h
  · split
    · exact insert_pending_adds h fun c hc => mem_singleton.mp hc ▸ hb
    · exact Adds.refl h

/-- However a conditional jump is placed, its code is added and both its ways are tasks. -/
theorem Forked.adds (h : s.Bounded) (hf : f.Within s.draft.size)
    (hs : Forked subj scope f s (.ok () s')) : Adds s s' [f.jump.addr] [f.next, f.target] := by
  have hhere : ∀ {n c : Nat}, c < n → ∀ c', some c = some c' → c' < n :=
    fun hc c' heq => Option.some.inj heq ▸ hc
  cases hs with
  | @leaves cond out inside ways _ =>
    have h₁ := push_adds h (hf.way (h.draft.parents f.branch) out)
    have h₂ := push_adds h₁.bounded (hf.way (hhere hf.branch) inside)
    have h₃ := put_adds_of_refs_nil h₂.bounded hf.branch (n := .ifGoto f.jump cond out f.slot) rfl
    exact ((h₁.trans h₂).trans h₃).perm (.refl _) ways.perm
  | @narrows cond out inside ways _ _ =>
    have h₁ := put_adds_of_refs_nil h hf.branch (n := .andIf f.jump cond inside f.slot) rfl
    have h₂ := newBranch_adds h₁.bounded (q := none)
      (fun c hc => by cases hc) Draft.shadowLevel (-1)
    have hf₂ := hf.mono (h₁.trans h₂).size
    have h₃ := push_adds h₂.bounded (hf₂.way (hhere (c := s.draft.size) (by simp)) out)
    have h₄ := push_adds h₃.bounded (hf₂.way (hhere hf₂.branch) inside)
    exact (((h₁.trans h₂).trans h₃).trans h₄).perm (.refl _) ways.perm
  | @parted found joint memo _ _ _ =>
    have h₁ := note_adds h s.labels memo
    have h₂ := newBranch_adds h₁.bounded (hhere hf.branch) (f.level + 1)
      (s.draft.nodes f.branch).length
    have hf₂ := hf.mono h₂.size
    have h₃ := newBranch_adds h₂.bounded (hhere hf₂.branch) (f.level + 1)
      (s.draft.nodes f.branch).length
    have hf₃ := hf₂.mono h₃.size
    -- Both branches are new, so no construct holds them yet.
    have hnext := (Draft.fresh_newBranch h.draft (some f.branch) (f.level + 1)
      (s.draft.nodes f.branch).length).newBranch
      (some f.branch) (f.level + 1) (s.draft.nodes f.branch).length
    have htaken := Draft.fresh_newBranch h₂.bounded.draft (some f.branch) (f.level + 1)
      (s.draft.nodes f.branch).length
    rw [Draft.size_newBranch] at htaken
    have h₄ := foresees_adds subj scope h₃.bounded hf₃.branch joint
    have h₅ := push_adds h₄.bounded (t := f.half s.draft.size f.next) ⟨hhere hnext.1, hf₃.loops⟩
    have htakenLt : f.takenBranch joint (s.draft.size + 1) <
        ((s.draft.newBranch (some f.branch) (f.level + 1)
          (s.draft.nodes f.branch).length).2.newBranch (some f.branch)
          (f.level + 1) (s.draft.nodes f.branch).length).2.size := by
      unfold Fork.takenBranch
      split
      · exact htaken.1
      · exact hf₃.branch
    have h₆ := push_adds h₅.bounded (t := f.half (f.takenBranch joint (s.draft.size + 1)) f.target)
      ⟨hhere htakenLt, hf₃.loops⟩
    have h₇ := put_adds h₆.bounded hf₃.branch
      (n := .ifElse f.jump (joint.getD f.target) s.draft.size (s.draft.size + 1) f.slot)
      (by simp [DraftNode.refs]) (fun c hc => by
        rcases mem_pair.mp hc with rfl | rfl
        · exact ⟨hf.branch, hnext⟩
        · exact ⟨Nat.lt_succ_of_lt hf.branch, htaken⟩)
    exact ((((((h₁.trans h₂).trans h₃).trans h₄).trans h₅).trans h₆).trans h₇).perm (.refl _)
      (Perm.swap _ _ _)

/-! ## Placing a node -/

/-- What comes of placing a node at the end of the branch `b`. -/
inductive Put (subj : Subject) (scope : Scope) (b level : Nat) (t : Task) (insns : List Insn)
    (s : Build) : EStateM.Result Fault Build Unit → Prop where
  | stop {labels : OrdMap Int String} (succs : subj.graph.succs.get? t.addr = none) :
    Put subj scope b level t insns s (.ok () { s with
      draft := s.draft.add b (.block insns), visited := t.addr :: s.visited, labels })
  | step {v : Int} (succs : subj.graph.succs.get? t.addr = some [v]) :
    Put subj scope b level t insns s (.ok () { s with
      draft := s.draft.add b (.block insns), visited := t.addr :: s.visited
      tasks := { t with branch := some b, source := some t.addr, addr := v } :: s.tasks })
  | fork {jump : Insn} {slot : Option Insn} {x y : Int} {r : EStateM.Result Fault Build Unit}
    (jump_addr : jump.addr = t.addr) (succs : subj.graph.succs.get? t.addr = some [x, y])
    (forked : Forked subj scope ⟨jump, slot, x, y, b, level, t⟩ { s with visited := t.addr ::
      s.visited } r) :
    Put subj scope b level t insns s r

theorem placeNode_put (hg : subj.graph.WellFormed) (scope : Scope) (b level : Nat) (s : Build)
    (hnode : subj.graph.nodes.get? t.addr = some insns) :
    Put subj scope b level t insns s (placeNode subj scope b level t insns s) := by
  obtain ⟨i, rest, rfl, hi⟩ := hg.heads _ _ hnode
  unfold placeNode
  rw [modify_bind_apply]
  cases hsucc : subj.graph.succs.get? t.addr with
  | none => exact .stop hsucc
  | some next =>
    obtain ⟨v, rfl⟩ | ⟨x, y, rfl⟩ := hg.one_or_two hsucc
    · exact .step hsucc
    · exact .fork hi hsucc (placeFork_forked ..)

/-- Placing a node adds its code, and a task for each of its successors. -/
theorem placeNode_adds (hg : subj.graph.WellFormed) (h : s.Bounded) (hb : b < s.draft.size)
    (ht : ∀ f ∈ t.loops, f.branch < s.draft.size)
    (hnode : subj.graph.nodes.get? t.addr = some insns)
    (hs : placeNode subj scope b level t insns s = .ok () s') :
    Adds { s with visited := t.addr :: s.visited } s' [t.addr] (subj.graph.next t.addr) := by
  have h₀ : Build.Bounded { s with visited := t.addr :: s.visited } := { h with }
  have hput := placeNode_put hg scope b level s hnode
  rw [hs] at hput
  obtain ⟨i, rest, rfl, hi⟩ := hg.heads _ _ hnode
  have hblock := put_adds_of_refs_nil h₀ hb (n := .block (i :: rest)) rfl
  have hkey : (DraftNode.block (i :: rest)).key?.toList = [t.addr] := by simp [DraftNode.key?, hi]
  rw [hkey] at hblock
  cases hput with
  | @stop labels succs =>
    rw [Graph.next, OrdMap.getD, succs]
    exact hblock.trans (note_adds hblock.bounded labels s.memo)
  | @step v succs =>
    rw [Graph.next, getD_of_get? succs]
    exact hblock.trans (push_adds hblock.bounded
      (t := { t with branch := some b, source := some t.addr, addr := v })
      ⟨fun c hc => Option.some.inj hc ▸ lt_of_lt_of_le hb hblock.size, fun f hf =>
        lt_of_lt_of_le (ht f hf) hblock.size⟩)
  | fork hjump succs hforked =>
    rw [Graph.next, getD_of_get? succs]
    exact (hforked.adds h₀ ⟨hb, ht⟩).perm (Perm.of_eq (congrArg (fun a => [a]) hjump)) (.refl _)

theorem referBack_eq_ok (hs : referBack subj scope b addr s = .ok () s') :
    ∃ needed, needsGoto subj scope (s.draft.nodes b) addr = .ok needed ∧
      s' = { s with draft := if needed then s.draft.add b (.goto addr) else s.draft } := by
  simp only [referBack, bind_eq_ok, get_eq_ok] at hs
  obtain ⟨_, _, ⟨rfl, rfl⟩, hs⟩ := hs
  cases hgoto : needsGoto subj scope (s.draft.nodes b) addr with
  | error e =>
    rw [hgoto] at hs
    cases hs
  | ok needed =>
    rw [hgoto] at hs
    refine ⟨needed, rfl, ?_⟩
    cases needed with
    | true | false =>
      cases hs
      rfl

/-- Leading to a node that has been placed adds at most a goto. -/
theorem referBack_adds (h : s.Bounded) (hb : b < s.draft.size)
    (hs : referBack subj scope b addr s = .ok () s') : Adds s s' [] [] := by
  obtain ⟨needed, -, rfl⟩ := referBack_eq_ok hs
  cases needed with
  | true => exact put_adds_of_refs_nil (n := .goto addr) h hb rfl
  | false => exact Adds.refl h

/-! ## Nodes that are put off -/

/-- A draft with gotos added: the same branches with the same code. -/
structure SameCode (d d' : Draft) : Prop where
  wellFormed : d'.WellFormed
  size : d'.size = d.size
  keys : d'.allKeys.Perm d.allKeys

theorem SameCode.refl (h : d.WellFormed) : SameCode d d := ⟨h, rfl, .refl _⟩

theorem SameCode.trans {d' d'' : Draft} (h : SameCode d d') (h' : SameCode d' d'') :
    SameCode d d'' :=
  ⟨h'.wellFormed, h'.size.trans h.size, h'.keys.trans h.keys⟩

theorem sameCode_addGoto (h : d.WellFormed) (hb : b < d.size) (addr : Int) :
    SameCode d (d.add b (.goto addr)) :=
  ⟨h.add hb (by simp [DraftNode.refs]) (by simp [DraftNode.refs]), Draft.size_add _ _,
    Draft.allKeys_add hb _⟩

theorem endWithGoto_sameCode (h : d.WellFormed) (uncond : List Int) (addr : Int) (hb : b < d.size) :
    SameCode d (endWithGoto uncond addr d b) := by
  rcases Draft.endWithGoto_eq uncond addr d b with heq | heq
  · rw [heq]
    exact sameCode_addGoto h hb addr
  · rw [heq]
    exact SameCode.refl h

theorem foldl_endWithGoto_sameCode (uncond : List Int) (addr : Int) (l : List Nat) :
    ∀ {d : Draft}, d.WellFormed → (∀ b ∈ l, b < d.size) →
      SameCode d (l.foldl (endWithGoto uncond addr) d) := by
  induction l with
  | nil => intro d h _; exact SameCode.refl h
  | cons b rest ih =>
    intro d h hl
    have hstep := endWithGoto_sameCode h uncond addr (hl b (.head _))
    refine hstep.trans (ih hstep.wellFormed fun c hc => ?_)
    rw [hstep.size]
    exact hl c (mem_cons_of_mem b hc)

/-- The place of the branch chosen among those that lead to the node. -/
theorem getElem?_of_leastNested {spurious : List LoopId} (l : List (Nat × Int)) :
    ∀ {k : Nat} {best : Option (Nat × Nat)} {j b : Nat}, leastNested d spurious addr k l best =
      some (j, b) → best = some (j, b) ∨ k ≤ j ∧ ∃ start, l[j - k]? = some (b, start) := by
  induction l with
  | nil => intro k best j b h; exact .inl h
  | cons e rest ih =>
    intro k best j b h
    obtain ⟨c, start⟩ := e
    have hhere : some (k, c) = some (j, b) →
        k ≤ j ∧ ∃ start', ((c, start) :: rest)[j - k]? = some (b, start') := by
      intro heq
      cases heq
      exact ⟨Nat.le_refl k, start, by rw [Nat.sub_self]; rfl⟩
    unfold leastNested at h
    rcases ih h with hbest | ⟨hle, start', hget⟩
    · split at hbest
      · exact .inl hbest
      · split at hbest
        · exact .inr (hhere hbest)
        · split at hbest
          · exact .inr (hhere hbest)
          · exact .inl hbest
    · refine .inr ⟨by omega, start', ?_⟩
      rw [show j - k = (j - (k + 1)) + 1 by omega, List.getElem?_cons_succ]
      exact hget

/-- From `s` to `s'` the waiting of a node ended: no code and no tasks were added, and other nodes
still wait. -/
structure Gathers (s s' : Build) (addr : Int) : Prop where
  bounded : s'.Bounded
  size : s'.draft.size = s.draft.size
  keys : s'.draft.allKeys.Perm s.draft.allKeys
  visited : s'.visited = s.visited
  tasks : s'.tasks = s.tasks
  pending : ∀ a ∈ s.pending.keys, a = addr ∨ a ∈ s'.pending.keys

theorem Gathers.refl (h : s.Bounded) (addr : Int) : Gathers s s addr :=
  ⟨h, rfl, .refl _, rfl, rfl, fun _ ha => .inr ha⟩

/-- A task at the end of the branch `b` makes a node wait: it is the first to come, or there is more
to wait for. -/
inductive Delays (subj : Subject) (scope : Scope) (t : Task) (b : Nat) (s : Build) :
    Pending → Prop where
  | first {q : Int} (unknown : s.pending.get? t.addr = none) (source : t.source = some q)
    (several : 1 < (scope.awaited subj.graph subj.nest t.addr).length)
    (mem : q ∈ scope.awaited subj.graph subj.nest t.addr) :
    Delays subj scope t b s ⟨[b], (scope.awaited subj.graph subj.nest t.addr).erase q,
      [scope.start]⟩
  | again {p : Pending} (known : s.pending.get? t.addr = some p)
    (more : (p.addWay b t.source scope.start).awaited ≠ []) :
    Delays subj scope t b s (p.addWay b t.source scope.start)

/-- A task at the end of the branch `b` ends the waiting for its node: the branch to put it in, the
draft with gotos at the ends of the others, and what still waits. -/
inductive Assembles (subj : Subject) (scope : Scope) (t : Task) (b : Nat) (s : Build) :
    Nat → Draft → OrdMap Int Pending → Prop where
  | alone (few : 1 < (subj.graph.preds.getD t.addr []).length →
      s.pending.get? t.addr = none ∧ (scope.awaited subj.graph subj.nest t.addr).length ≤ 1) :
    Assembles subj scope t b s b s.draft s.pending
  | together {p : Pending} {k best : Nat} (known : s.pending.get? t.addr = some p)
    (last : (p.addWay b t.source scope.start).awaited = [])
    (mem : (p.branches ++ [b])[k]? = some best) : Assembles subj scope t b s best
      (((p.branches ++ [b]).eraseIdx k).foldl (endWithGoto subj.graph.uncondJumps t.addr) s.draft)
      (s.pending.erase t.addr)

/-- What becomes of the waiting for the node of a task: it is put off, or a branch is given to put
it in. -/
def Awaits (subj : Subject) (scope : Scope) (t : Task) (b : Nat) (s : Build) (r : Option Nat)
    (s' : Build) : Prop :=
  (r = none ∧ 1 < (subj.graph.preds.getD t.addr []).length ∧
    ∃ p, Delays subj scope t b s p ∧ s' = { s with pending := s.pending.insert t.addr p }) ∨
  ∃ best d waiting, r = some best ∧ Assembles subj scope t b s best d waiting ∧
    s' = { s with draft := d, pending := waiting }

/-- One more way leads to a node that waits. -/
theorem putOffAgain_awaits (hpreds : 1 < (subj.graph.preds.getD t.addr []).length)
    (hp : s.pending.get? t.addr = some p)
    (hs : putOffAgain subj t.addr (p.addWay b t.source scope.start) s = .ok r s') :
    Awaits subj scope t b s r s' := by
  unfold putOffAgain at hs
  split at hs
  · rename_i hlast
    simp only [assemble, bind_eq_ok, get_eq_ok] at hs
    obtain ⟨_, _, ⟨rfl, rfl⟩, hs⟩ := hs
    cases hbest : leastNested s.draft subj.nest.spurious t.addr 0
        ((p.addWay b t.source scope.start).branches.zip
          (p.addWay b t.source scope.start).loopStarts) none with
    | none =>
      rw [hbest] at hs
      cases hs
    | some found =>
      obtain ⟨k, best⟩ := found
      rw [hbest] at hs
      cases hs
      obtain hnone | ⟨-, start, hget⟩ := getElem?_of_leastNested _ hbest
      · cases hnone
      · exact .inr ⟨best, _, _, rfl, .together hp (List.isEmpty_iff.mp hlast)
          (List.getElem?_zip_eq_some.mp hget).1, rfl⟩
  · rename_i hmore
    cases hs
    exact .inl ⟨rfl, hpreds, _, .again hp fun hnil => hmore (List.isEmpty_iff.mpr hnil), rfl⟩

/-- The first way that leads to a node. -/
theorem firstArrival_awaits (hpreds : 1 < (subj.graph.preds.getD t.addr []).length)
    (hp : s.pending.get? t.addr = none)
    (hs : firstArrival subj scope b t.source t.addr s = .ok r s') :
    Awaits subj scope t b s r s' := by
  unfold firstArrival at hs
  split at hs
  · rename_i hseveral
    cases hsource : t.source with
    | none =>
      rw [hsource] at hs
      cases hs
    | some q =>
      rw [hsource] at hs
      dsimp only at hs
      split at hs
      · rename_i hmem
        cases hs
        exact .inl ⟨rfl, hpreds, _, .first hp hsource hseveral hmem, rfl⟩
      · cases hs
  · rename_i hfew
    obtain ⟨rfl, rfl⟩ := pure_eq_ok.mp hs
    exact .inr ⟨b, _, _, rfl, .alone fun _ => ⟨hp, Nat.not_lt.mp hfew⟩, rfl⟩

/-- A node is put off, or its waiting ends. -/
theorem gather_awaits (hs : gather subj scope b t.source t.addr s = .ok r s') :
    Awaits subj scope t b s r s' := by
  unfold gather at hs
  split at hs
  · rename_i hpreds
    simp only [rendezvous, bind_eq_ok, get_eq_ok] at hs
    obtain ⟨_, _, ⟨rfl, rfl⟩, hs⟩ := hs
    cases hp : s.pending.get? t.addr with
    | some p =>
      rw [hp] at hs
      exact putOffAgain_awaits hpreds hp hs
    | none =>
      rw [hp] at hs
      exact firstArrival_awaits hpreds hp hs
  · rename_i hfew
    obtain ⟨rfl, rfl⟩ := pure_eq_ok.mp hs
    exact .inr ⟨b, _, _, rfl, .alone fun hpreds => absurd hpreds hfew, rfl⟩

theorem Assembles.gathers (h : s.Bounded) (hb : b < s.draft.size) {best : Nat}
    {waiting : OrdMap Int Pending} (ha : Assembles subj scope t b s best d waiting) :
    best < d.size ∧ Gathers s { s with draft := d, pending := waiting } t.addr := by
  cases ha with
  | alone => exact ⟨hb, Gathers.refl h t.addr⟩
  | @together p k best known _ mem =>
    have hbranches : ∀ c ∈ p.branches ++ [b], c < s.draft.size :=
      forall_mem_append.mpr ⟨h.pending t.addr p known, forall_mem_singleton.mpr hb⟩
    have hsame := foldl_endWithGoto_sameCode subj.graph.uncondJumps t.addr
      ((p.branches ++ [b]).eraseIdx k) h.draft fun c hc => hbranches c (mem_of_mem_eraseIdx hc)
    refine ⟨hsame.size ▸ hbranches best (mem_of_getElem? mem), ⟨hsame.wellFormed, fun t' ht' => ?_,
      fun a q hq => ?_⟩, hsame.size, hsame.keys, rfl, rfl, fun a ha => ?_⟩
    · rw [hsame.size]
      exact h.tasks t' ht'
    · rw [hsame.size]
      rw [OrdMap.get?_erase] at hq
      split at hq
      · cases hq
      · exact h.pending a q hq
    · by_cases haddr : a = t.addr
      · exact .inl haddr
      · exact .inr (mem_keys_erase.mpr ⟨ha, haddr⟩)

/-- A node with several predecessors is put off, or all have come and it gets a branch. -/
theorem gather_cases (h : s.Bounded) (hb : b < s.draft.size)
    (hs : gather subj scope b t.source t.addr s = .ok r s') :
    (r = none ∧ t.addr ∈ s'.pending.keys ∧ Adds s s' [] []) ∨
      ∃ best, r = some best ∧ best < s'.draft.size ∧ Gathers s s' t.addr := by
  obtain ⟨rfl, -, p, hdelays, rfl⟩ | ⟨best, d, waiting, rfl, hassembles, rfl⟩ := gather_awaits hs
  · refine .inl ⟨rfl, mem_keys_insert.mpr (.inl rfl), insert_pending_adds h ?_⟩
    cases hdelays with
    | first => exact forall_mem_singleton.mpr hb
    | @again p known =>
      exact forall_mem_append.mpr ⟨h.pending t.addr p known, forall_mem_singleton.mpr hb⟩
  · exact .inr ⟨best, rfl, hassembles.gathers h hb⟩

/-! ## One step -/

/-- The draft without a goto to the node that is put at the end of a branch next. -/
def withoutGoto (d : Draft) (b : Nat) (addr : Int) : Draft :=
  if 1 < (d.nodes b).length && (d.nodes b).getLast? = some (.goto addr) then d.dropLast b else d

theorem withoutGoto_sameCode (h : d.WellFormed) (b : Nat) (addr : Int) :
    SameCode d (withoutGoto d b addr) := by
  unfold withoutGoto
  split
  · rename_i hlast
    have hlast := of_decide_eq_true (Bool.and_eq_true_iff.mp hlast).2
    have hkeys : (d.dropLast b).keysOf = d.keysOf :=
      funext fun c => (Draft.keysOf_dropLast hlast c).1
    refine ⟨h.dropLast hlast, Draft.size_dropLast b, ?_⟩
    rw [Draft.allKeys, hkeys, Draft.size_dropLast, Draft.allKeys]
  · exact SameCode.refl h

/-- The state when a loop is opened at the end of a branch. -/
def opensLoop (subj : Subject) (scope : Scope) (b level : Nat) (addr : Int) (s : Build) : Build :=
  { s with
    draft := (s.draft.newBranch (some b) level (s.draft.nodes b).length).2.add b
      (.loop (decide ((⟨scope.start, addr⟩ : LoopId) ∈ subj.nest.endless)) s.draft.size)
    labels := s.labels.insert addr ("loop_0x" ++ Text.hexSigned 1 addr) }

theorem opensLoop_adds (subj : Subject) (scope : Scope) (h : s.Bounded) (hb : b < s.draft.size)
    (level : Nat) (addr : Int) :
    Adds s (opensLoop subj scope b level addr s) [] [] ∧
      s.draft.size < (opensLoop subj scope b level addr s).draft.size := by
  have h₁ := note_adds h (s.labels.insert addr ("loop_0x" ++ Text.hexSigned 1 addr)) s.memo
  have h₂ := newBranch_adds h₁.bounded (fun c hc => Option.some.inj hc ▸ hb) level
    (s.draft.nodes b).length
  have hfresh := Draft.fresh_newBranch h.draft (some b) level (s.draft.nodes b).length
  have h₃ := put_adds h₂.bounded (hb.trans hfresh.1)
    (n := .loop (decide ((⟨scope.start, addr⟩ : LoopId) ∈ subj.nest.endless)) s.draft.size)
    (by simp [DraftNode.refs]) fun c hc => mem_singleton.mp hc ▸ ⟨hb, hfresh⟩
  exact ⟨(h₁.trans h₂).trans h₃, lt_of_lt_of_le hfresh.1 h₃.size⟩

/-- A node for which the waiting is over is placed, in a loop of its own if it starts one. -/
theorem settle_eq (subj : Subject) (scope : Scope) (b level : Nat) (t : Task)
    (loops : List LoopFrame) (insns : List Insn) (s : Build) :
    settle subj scope b level t loops insns s =
      if startsLoop subj scope t.addr then
        placeNode subj (scopeOf subj (⟨b, scope.start, t.addr⟩ :: loops))
          (withoutGoto s.draft b t.addr).size (level + 1)
          { t with loops := ⟨b, scope.start, t.addr⟩ :: loops, otherWay := none } insns
          (opensLoop subj scope b (level + 1) t.addr
            { s with draft := withoutGoto s.draft b t.addr })
      else placeNode subj scope b level { t with loops } insns
        { s with draft := withoutGoto s.draft b t.addr } := by
  have hdrop : dropGotoTo b t.addr s = .ok () { s with draft := withoutGoto s.draft b t.addr } := by
    show EStateM.Result.ok () (if _ then _ else _) = _
    unfold withoutGoto
    split <;> rfl
  rw [settle, bind_of_ok hdrop]
  split <;> rfl

/-- Placing a node for which the waiting is over. -/
theorem settle_adds (hg : subj.graph.WellFormed) (h : s.Bounded) (hb : b < s.draft.size)
    {loops : List LoopFrame} (hloops : ∀ f ∈ loops, f.branch < s.draft.size)
    (hnode : subj.graph.nodes.get? t.addr = some insns)
    (hs : settle subj scope b level t loops insns s = .ok () s') :
    Adds { s with visited := t.addr :: s.visited } s' [t.addr] (subj.graph.next t.addr) := by
  -- What comes before the node itself adds nothing, and the visit may as well be noted first.
  have hvisit : ∀ {s₁ : Build}, Adds s s₁ [] [] →
      Adds { s with visited := t.addr :: s.visited } { s₁ with visited := t.addr :: s₁.visited } []
      [] := by
    intro s₁ ha
    exact { ha with bounded := { ha.bounded with }, visited := congrArg (t.addr :: ·) ha.visited }
  have hsame := withoutGoto_sameCode h.draft b t.addr
  have h₁ : Adds s { s with draft := withoutGoto s.draft b t.addr } [] [] :=
    draft_adds h hsame.wellFormed hsame.size.ge hsame.keys
  have hb₁ : b < (withoutGoto s.draft b t.addr).size := hsame.size ▸ hb
  have hloops₁ : ∀ f ∈ loops, f.branch < (withoutGoto s.draft b t.addr).size := hsame.size ▸ hloops
  rw [settle_eq] at hs
  split at hs
  · obtain ⟨h₂, hbody⟩ := opensLoop_adds subj scope h₁.bounded hb₁ (level + 1) t.addr
    have hplaced := placeNode_adds hg h₂.bounded hbody
      (t := { t with loops := ⟨b, scope.start, t.addr⟩ :: loops, otherWay := none })
      (forall_mem_cons.mpr ⟨hb₁.trans hbody, fun f hf => (hloops₁ f hf).trans hbody⟩) hnode hs
    have hboth := (hvisit (h₁.trans h₂)).trans hplaced
    simpa using hboth
  · have hplaced := placeNode_adds hg h₁.bounded hb₁ (t := { t with loops }) hloops₁ hnode hs
    have hboth := (hvisit h₁).trans hplaced
    simpa using hboth

/-- What a step may do with a task. -/
inductive Placement (subj : Subject) (t : Task) (s s' : Build) : Prop where
  /-- It is not followed. -/
  | turned (away : turnsAway subj s.pending t = true) (same : s' = s)
  /-- Its node is placed already. -/
  | known (mem : t.addr ∈ s.visited) (adds : Adds s s' [] [])
  /-- Its node waits for other predecessors. -/
  | putOff (waits : t.addr ∈ s'.pending.keys) (adds : Adds s s' [] [])
  /-- Its node is placed. -/
  | placed (s₁ : Build) (new : t.addr ∉ s.visited) (node : t.addr ∈ subj.graph.nodes.keys)
      (gathers : Gathers s s₁ t.addr)
      (adds : Adds { s₁ with visited := t.addr :: s₁.visited } s' [t.addr] (subj.graph.next t.addr))

theorem leaveLoops_bounded :
    ∀ {loops : List LoopFrame} {b : Option Nat} {r : Option Nat × List LoopFrame},
      (∀ f ∈ loops, f.branch < n) → (∀ c, b = some c → c < n) →
        leaveLoops subj addr loops b = .ok r →
      (∀ c, r.1 = some c → c < n) ∧ ∀ f ∈ r.2, f.branch < n := by
  intro loops
  induction loops with
  | nil =>
    intro b r _ hb h
    cases h
    exact ⟨hb, by simp⟩
  | cons frame outer ih =>
    intro b r hloops hb h
    unfold leaveLoops at h
    cases hall : subj.nest.tables.all.get? frame.id with
    | none =>
      rw [hall] at h
      cases h
    | some nodes =>
      rw [hall] at h
      dsimp only at h
      split at h
      · cases h
        exact ⟨hb, hloops⟩
      · refine ih (forall_mem_cons.mp hloops).2 (fun c hc => ?_) h
        rw [← Option.some.inj hc]
        exact hloops frame (.head _)

/-- The parts of a step: a task that is followed leaves loops, then leads back, is put off, or has
its node placed. -/
theorem place_eq_ok (hs : place subj t s = .ok () s') :
    (turnsAway subj s.pending t = true ∧ s' = s) ∨
      ∃ insns b loops, subj.graph.nodes.get? t.addr = some insns ∧
        leaveLoops subj t.addr t.loops t.branch = .ok (some b, loops) ∧
        ((t.addr ∈ s.visited ∧ referBack subj (scopeOf subj loops) b t.addr s = .ok () s') ∨
          (t.addr ∉ s.visited ∧ ∃ r s₁,
            gather subj (scopeOf subj loops) b t.source t.addr s = .ok r s₁ ∧
              ((r = none ∧ s' = s₁) ∨ ∃ best level, r = some best ∧
                settle subj (scopeOf subj loops) best level t loops insns s₁ = .ok () s'))) := by
  simp only [place, bind_eq_ok, get_eq_ok] at hs
  obtain ⟨_, _, ⟨rfl, rfl⟩, hs⟩ := hs
  split at hs
  · rename_i haway
    exact .inl ⟨haway, (pure_eq_ok.mp hs).2.symm⟩
  · cases hnode : subj.graph.nodes.get? t.addr with
    | none =>
      rw [hnode] at hs
      cases hs
    | some insns =>
      rw [hnode] at hs
      dsimp only at hs
      cases hleave : leaveLoops subj t.addr t.loops t.branch with
      | error e =>
        rw [hleave] at hs
        cases hs
      | ok r =>
        obtain ⟨b?, loops⟩ := r
        rw [hleave] at hs
        cases b? with
        | none => cases hs
        | some b =>
          simp only [arrive, bind_eq_ok, get_eq_ok] at hs
          obtain ⟨_, _, ⟨rfl, rfl⟩, hs⟩ := hs
          refine .inr ⟨insns, b, loops, rfl, rfl, ?_⟩
          split at hs
          · rename_i hmem
            exact .inl ⟨hmem, hs⟩
          · rename_i hnew
            obtain ⟨r, s₁, hgather, hs⟩ := bind_eq_ok.mp hs
            refine .inr ⟨hnew, r, s₁, hgather, ?_⟩
            cases r with
            | none => exact .inl ⟨rfl, (pure_eq_ok.mp hs).2.symm⟩
            | some best => exact .inr ⟨best, _, rfl, hs⟩

/-- A step does one of four things with its task. -/
theorem place_cases (hg : subj.graph.WellFormed) (h : s.Bounded) (ht : t.Within s.draft.size)
    (hs : place subj t s = .ok () s') : Placement subj t s s' := by
  obtain ⟨haway, rfl⟩ | ⟨insns, b, loops, hnode, hleave, hs⟩ := place_eq_ok hs
  · exact .turned haway rfl
  · obtain ⟨hb, hloops⟩ := leaveLoops_bounded ht.loops ht.branch hleave
    have hb : b < s.draft.size := hb b rfl
    obtain ⟨hmem, hs⟩ | ⟨hnew, r, s₁, hgather, hs⟩ := hs
    · exact .known hmem (referBack_adds h hb hs)
    · obtain ⟨rfl, hwaits, ha⟩ | ⟨best, rfl, hbest, hgath⟩ := gather_cases h hb hgather
      · obtain ⟨-, rfl⟩ | ⟨best, _, hnone, -⟩ := hs
        · exact .putOff hwaits ha
        · cases hnone
      · obtain ⟨hnone, -⟩ | ⟨_, level, heq, hs⟩ := hs
        · cases hnone
        · obtain rfl := Option.some.inj heq
          exact .placed s₁ hnew (mem_keys_of_get? hnode) hgath
            (settle_adds hg hgath.bounded hbest (fun f hf => hgath.size ▸ hloops f hf) hnode hs)

/-- What a step comes to: the nodes `seen` are placed, one at most, and `more` are the tasks for
their successors. -/
structure DealsWith (subj : Subject) (t : Task) (s s' : Build) (seen : List Int)
    (more : List Task) : Prop where
  bounded : s'.Bounded
  visited : s'.visited = seen ++ s.visited
  tasks : s'.tasks = more ++ s.tasks
  follow : (more.map (·.addr)).Perm (seen.flatMap subj.graph.next)
  keys : s'.draft.allKeys.Perm (seen ++ s.draft.allKeys)
  pending : ∀ a ∈ s.pending.keys, a ∈ seen ∨ a ∈ s'.pending.keys
  nodup : seen.Nodup
  fresh : ∀ a ∈ seen, a = t.addr ∧ a ∉ s.visited
  dealt : t.addr ∈ seen ∨ t.addr ∈ s.visited ∨ t.addr ∈ s'.pending.keys ∨
    turnsAway subj s.pending t = true

theorem Placement.deals (h : s.Bounded) (hp : Placement subj t s s') :
    ∃ seen more, DealsWith subj t s s' seen more := by
  have hnothing : Adds s s' [] [] → (t.addr ∈ s.visited ∨ t.addr ∈ s'.pending.keys ∨
      turnsAway subj s.pending t = true) → ∃ seen more, DealsWith subj t s s' seen more := by
    intro ha hdealt
    obtain ⟨new, hnew, hperm⟩ := ha.tasks
    obtain rfl : new = [] := by simpa using hperm
    exact ⟨[], [], ha.bounded, ha.visited, hnew, .refl _, ha.keys, fun a hp =>
      .inr (ha.pending a hp), nodup_nil, forall_mem_nil _, .inr hdealt⟩
  cases hp with
  | turned haway hsame =>
    subst hsame
    exact hnothing (Adds.refl h) (.inr (.inr haway))
  | known hmem ha => exact hnothing ha (.inl hmem)
  | putOff hwaits ha => exact hnothing ha (.inr (.inl hwaits))
  | placed s₁ hnew _ hgath ha =>
    obtain ⟨more, hmore, hperm⟩ := ha.tasks
    refine ⟨[t.addr], more, ha.bounded, ?_, ?_, by simpa using hperm,
      ha.keys.trans (Perm.cons _ hgath.keys),
      fun a hp => ?_, nodup_singleton _, fun a hs => ?_, .inl (mem_singleton.mpr rfl)⟩
    · rw [ha.visited, ← hgath.visited]
      rfl
    · rw [hmore, ← hgath.tasks]
    · exact (hgath.pending a hp).imp mem_singleton.mpr (ha.pending a)
    · obtain rfl := mem_singleton.mp hs
      exact ⟨rfl, hnew⟩

/-- A step of a structuring takes the next task and deals with it. -/
theorem place_deals (hg : subj.graph.WellFormed) (h : s.Bounded) {rest : List Task}
    (htasks : s.tasks = t :: rest) (hs : place subj t { s with tasks := rest } = .ok () s') :
    ∃ seen more, DealsWith subj t { s with tasks := rest } s' seen more := by
  have hrest : Build.Bounded { s with tasks := rest } :=
    ⟨h.draft, fun t' ht' => h.tasks t' (htasks ▸ mem_cons_of_mem t ht'), h.pending⟩
  exact (place_cases hg hrest (h.tasks t (htasks ▸ .head _)) hs).deals hrest

end Structuring

end Decompiler
