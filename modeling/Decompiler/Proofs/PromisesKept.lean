import Decompiler.Proofs.DraftFlow
import Decompiler.Proofs.LooplessRuns
/-!
# Promises that a structuring keeps

While a graph without cycles is structured, the end of every branch that control gets to is promised
to the address that a task or a node put off will bring there (`Build.Promises`). A step that adds a
node keeps what was promised at the end of its branch, ends the other branches that lead to the node
with gotos, and promises what the node leads on to (`Advances.steady`). A step that leads back to a
node adds a goto in its place, and one that puts a node off promises the same as before. So the
draft of a run is one in which every node leads on to its successors (`Build.Steady.run`).
-/

namespace Decompiler

open List Structuring

variable {g : Graph} {d d' : Draft} {x expected y a : Int} {slot : Option Insn} {joint : Option Int}
  {best : Nat} {more : List Task} {waiting : OrdMap Int Pending}

/-- The end of a branch is promised to an address: a task leads there, or a node that is put off
waits at it. -/
def Build.Promises (s : Build) (b : Nat) (a : Int) : Prop :=
  (∃ t ∈ s.tasks, t.branch = some b ∧ t.addr = a) ∨ ∃ p, s.pending.get? a = some p ∧ b ∈ p.branches

/-- The branch of a task is set aside for it: nothing is in it, and nothing else waits at it. -/
def Build.Reserves (s : Build) (t : Task) : Prop :=
  ∀ c, t.branch = some c → s.draft.nodes c = [] ∧ ∀ a p, s.pending.get? a = some p → c ∉ p.branches

/-- A structuring that keeps its promises. -/
structure Build.Steady (g : Graph) (s : Build) : Prop where
  nodup : (s.tasks.map Task.branch).Nodup
  tail : ∀ t ∈ s.tasks.tail, s.Reserves t
  /-- A task that leads to a node which stands elsewhere is at the start of a branch. -/
  top : ∀ t ∈ s.tasks.head?, t.addr ∈ s.visited → ∀ b, t.branch = some b → s.draft.nodes b = []
  one : ∀ b a a', s.Promises b a → s.Promises b a' → a = a'
  held : ∀ b, b ≠ Draft.head → b < s.draft.size → ∃ q k, s.draft.Holds q k b
  flows : s.draft.Flows g s.Promises

namespace Structuring

variable {subj : Subject} {s s' : Build} {t : Task} {rest : List Task} {b : Nat}

/-! ## What a node that is placed adds -/

/-- How a draft grows by a node `n` at the end of the branch `b`, made ready in `d₁`. -/
structure Adjoined (g : Graph) (a : Int) (b : Nat) (d : Draft) (joint : Option Int)
    (more : List Task) (d₁ : Draft) (n : DraftNode) : Prop where
  nodes : d₁.nodes = d.nodes
  size : d.size ≤ d₁.size
  start : n.start? = some a
  refs : ∀ c, d.size ≤ c → c < d₁.size → c ∈ n.refs
  branches : ∀ t ∈ more, ∃ c, t.branch = some c ∧ (c = b ∨ d.size ≤ c)
  tail : ∀ t ∈ more.tail, ∃ c, t.branch = some c ∧ d.size ≤ c
  nodup : (more.map Task.branch).Nodup
  joint : ∀ t ∈ more, t.branch = some b → ∀ j, joint = some j → t.addr = j
  /-- The node leads on if its tasks keep their promises and nothing is promised at the other new
  branches. -/
  leads : ∀ P : Nat → Int → Prop, (∀ t ∈ more, ∀ c, t.branch = some c → P c t.addr) →
    (∀ c, d.size ≤ c → (∀ t ∈ more, t.branch ≠ some c) → ∀ x, ¬ P c x) →
    n.LeadsOn g ((d₁.add b n).Lands P) b (d.stop b)

/-- A fork leads on if the way of the next instruction is promised at its branch, and the way of the
jump at its branch, or behind the fork if nothing is promised at that branch. -/
theorem leadsOn_fork {P : Nat → Int → Prop} {d₁ : Draft} (hb : b < d.size)
    (hnodes : d₁.nodes = d.nodes) (hsize : d₁.size = d.size + 2) {jump : Insn}
    (hnext : g.next jump.addr = [x, y]) (hx : P d.size x)
    (hy : P (d.size + 1) y ∨ (∀ z, ¬ P (d.size + 1) z) ∧ P b y) :
    (DraftNode.ifElse jump expected d.size (d.size + 1) slot).LeadsOn g
      ((d₁.add b (.ifElse jump expected d.size (d.size + 1) slot)).Lands P) b (d.stop b) := by
  have hb₁ : b < d₁.size := by omega
  have hstop : d₁.stop b = d.stop b := by rw [Draft.stop, hnodes, Draft.stop]
  -- The new branches are empty.
  have hempty : ∀ {c : Nat}, d.size ≤ c →
      0 = (d₁.add b (.ifElse jump expected d.size (d.size + 1) slot)).stop c := by
    intro c hc
    rw [Draft.stop_add hb₁, if_neg (by omega), Draft.stop, hnodes, Draft.nodes_of_size_le hc,
      length_nil]
  refine ⟨x, y, hnext, ?_, ?_⟩
  · rw [hempty le_rfl]
    exact .promised hx
  · rw [hempty (Nat.le_succ d.size)]
    rcases hy with hy | ⟨hfree, hy⟩
    · exact .promised hy
    · refine .past hfree ⟨_, hstop ▸ Draft.getElem?_stop_add hb₁ _, .tail _ (.head _)⟩ ?_
      have hend : d.stop b + 1 = (d₁.add b (.ifElse jump expected d.size (d.size + 1) slot)).stop
          b := by
        rw [Draft.stop_add hb₁, if_pos rfl, hstop]
      rw [hend]
      exact .promised hy

/-- A fork promises its ways at two new branches, or the taken way behind it. -/
theorem adjoined_fork {jump : Insn} {level : Nat} {tx ty : Task} (hb : b < d.size)
    (jump_addr : jump.addr = a) (next : g.next a = [x, y]) (leads : Leads tx d.size a x)
    (other : Leads ty (if joint.any (· ≠ y) then d.size + 1 else b) a y) :
    Adjoined g a b d joint [ty, tx]
      ((d.newBranch (some b) level (d.nodes b).length).2.newBranch (some b) level
      (d.nodes b).length).2 (.ifElse jump expected d.size (d.size + 1) slot) := by
  have htaken : ∃ c, ty.branch = some c ∧ (c = b ∨ c = d.size + 1) := by
    refine ⟨_, other.branch, ?_⟩
    split
    · exact .inr rfl
    · exact .inl rfl
  have hnodes : ((d.newBranch (some b) level (d.nodes b).length).2.newBranch (some b) level
      (d.nodes b).length).2.nodes =
      d.nodes := funext fun c => by rw [Draft.nodes_newBranch, Draft.nodes_newBranch]
  refine ⟨hnodes, ?_, congrArg some jump_addr, ?_, ?_, ?_, ?_, ?_, ?_⟩
  · rw [Draft.size_newBranch, Draft.size_newBranch]
    omega
  · intro c hc hlt
    rw [Draft.size_newBranch, Draft.size_newBranch] at hlt
    rcases Nat.eq_or_lt_of_le hc with rfl | hc
    · exact (.head _)
    · obtain rfl : c = d.size + 1 := by omega
      exact .tail _ (.head _)
  · intro t ht
    rcases mem_pair.mp ht with rfl | rfl
    · obtain ⟨c, hc, hcases⟩ := htaken
      exact ⟨c, hc, hcases.imp_right fun h => by omega⟩
    · exact ⟨_, leads.branch, .inr le_rfl⟩
  · intro t ht
    rw [mem_singleton.mp ht]
    exact ⟨_, leads.branch, le_rfl⟩
  · obtain ⟨c, hc, hcases⟩ := htaken
    have hne : c ≠ d.size := by omega
    simp [hc, leads.branch, hne]
  · intro t ht hbranch j hj
    rcases mem_pair.mp ht with rfl | rfl
    · -- The taken way goes on in the branch itself only if nothing else is foreseen there.
      rw [other.branch, hj] at hbranch
      rw [other.addr]
      by_contra hne
      have hsome : d.size + 1 = b := by simpa [Ne.symm hne] using hbranch
      omega
    · rw [leads.branch] at hbranch
      have := Option.some.inj hbranch
      omega
  · intro P hP hfree
    refine leadsOn_fork hb hnodes (by rw [Draft.size_newBranch, Draft.size_newBranch])
      (jump_addr ▸ next) (leads.addr ▸ hP tx (.tail _ (.head _)) _ leads.branch) ?_
    have hy := hP ty (.head _) _ other.branch
    rw [other.addr] at hy
    split at hy
    · exact .inl hy
    · rename_i hany
      refine .inr ⟨hfree (d.size + 1) (by omega) fun t ht => ?_, hy⟩
      rcases mem_pair.mp ht with rfl | rfl
      · rw [other.branch, if_neg hany]
        exact fun h => absurd (Option.some.inj h) (by omega)
      · rw [leads.branch]
        exact fun h => absurd (Option.some.inj h) (by omega)

theorem Adjoins.adjoined (hg : g.WellFormed) (hb : b < d.size) (h : Adjoins g a b d joint more d') :
    ∃ d₁ n, d' = d₁.add b n ∧ Adjoined g a b d joint more d₁ n := by
  cases h with
  | @stop insns node next =>
    obtain ⟨i, rest, rfl, hi⟩ := hg.heads a insns node
    refine ⟨d, .block (i :: rest), rfl, rfl, le_rfl, congrArg some hi, fun c hc hlt =>
      absurd hlt (by omega), forall_mem_nil _, forall_mem_nil _, nodup_nil, forall_mem_nil _, ?_⟩
    intro P _ _ hpass first hfirst
    obtain rfl : i = first := Option.some.inj hfirst
    rw [hi, next]
    exact forall_mem_nil _
  | @step insns v t node next leads =>
    obtain ⟨i, rest, rfl, hi⟩ := hg.heads a insns node
    refine ⟨d, .block (i :: rest), rfl, rfl, le_rfl, congrArg some hi, fun c hc hlt =>
      absurd hlt (by omega), ?_, forall_mem_nil _, nodup_singleton _, ?_, ?_⟩
    · intro t' ht'
      rw [mem_singleton.mp ht']
      exact ⟨b, leads.branch, .inl rfl⟩
    · intro t _ _ j hj
      cases hj
    · intro P hP _ hpass first hfirst
      obtain rfl : i = first := Option.some.inj hfirst
      rw [hi, next]
      intro w hw
      rw [mem_singleton.mp hw, ← leads.addr]
      have hstop : d.stop b + 1 = (d.add b (.block (i :: rest))).stop b := by
        rw [Draft.stop_add hb, if_pos rfl]
      rw [hstop]
      exact .promised (hP t (.head _) b leads.branch)
  | fork jump_addr next _ leads other =>
    exact ⟨_, _, rfl, adjoined_fork hb jump_addr next leads other⟩

/-! ## Branches that lead to a node -/

/-- The branches that lead to the node of a task which is taken: its own, and those at which the
node waits. -/
def Gathered (s : Build) (t : Task) (b c : Nat) : Prop :=
  c = b ∨ ∃ p, s.pending.get? t.addr = some p ∧ c ∈ p.branches

theorem gathered_iff_of_pending {p : Pending} {c : Nat} (hp : s.pending.get? t.addr = some p) :
    Gathered s t b c ↔ c ∈ p.branches ++ [b] := by
  rw [Gathered, mem_append, mem_singleton, or_comm, hp]
  simp

/-- What is promised by the tasks that are left, and by other nodes put off. -/
def Others (s : Build) (t : Task) (rest : List Task) (c : Nat) (x : Int) : Prop :=
  (∃ t' ∈ rest, t'.branch = some c ∧ t'.addr = x) ∨ ∃ p, x ≠ t.addr ∧ s.pending.get? x = some p ∧
    c ∈ p.branches

/-- A draft is made ready for a node at the end of the branch `best`: the other branches that lead
to the node end with a goto to it. -/
structure Readies (g : Graph) (s : Build) (t : Task) (b best : Nat) (d : Draft) : Prop where
  wellFormed : d.WellFormed
  size : d.size = s.draft.size
  keeps : Draft.Keeps g s.draft s.Promises d s.Promises
  closed : ∀ c, c ≠ best → Gathered s t b c → d.Closed g c
  nodes : ∀ (c i : Nat) (m : DraftNode), (d.nodes c)[i]? = some m →
    (s.draft.nodes c)[i]? = some m ∨ Gathered s t b c ∧ m = .goto t.addr

/-- A steady structuring is about to take the task `t`, which leads to the end of the branch `b`. -/
structure Takes (g : Graph) (s : Build) (t : Task) (rest : List Task) (b : Nat) : Prop where
  steady : s.Steady g
  bounded : s.Bounded
  tasks : s.tasks = t :: rest
  branch : t.branch = some b

section Gathered

variable (h : Takes subj.graph s t rest b) {c : Nat} {x : Int} {t' : Task}

include h

theorem promises_iff : s.Promises c x ↔ Others s t rest c x ∨ Gathered s t b c ∧ x = t.addr := by
  rw [Build.Promises, h.tasks]
  constructor
  · rintro (⟨t', ht', hc, rfl⟩ | ⟨p, hp, hc⟩)
    · rcases mem_cons.mp ht' with rfl | ht'
      · exact .inr ⟨.inl (Option.some.inj (hc.symm.trans h.branch)), rfl⟩
      · exact .inl (.inl ⟨t', ht', hc, rfl⟩)
    · by_cases hx : x = t.addr
      · exact .inr ⟨.inr ⟨p, hx ▸ hp, hc⟩, hx⟩
      · exact .inl (.inr ⟨p, hx, hp, hc⟩)
  · rintro ((⟨t', ht', hc, rfl⟩ | ⟨p, -, hp, hc⟩) | ⟨rfl | ⟨p, hp, hc⟩, rfl⟩)
    · exact .inl ⟨t', .tail _ ht', hc, rfl⟩
    · exact .inr ⟨p, hp, hc⟩
    · exact .inl ⟨t, .head _, h.branch, rfl⟩
    · exact .inr ⟨p, hp, hc⟩

theorem Gathered.promises (hc : Gathered s t b c) : s.Promises c t.addr :=
  (promises_iff h).mpr (.inr ⟨hc, rfl⟩)

theorem nodup_branches : some b ∉ rest.map Task.branch ∧ (rest.map Task.branch).Nodup := by
  have hnodup := h.steady.nodup
  rwa [h.tasks, map_cons, nodup_cons, h.branch] at hnodup

theorem reserves_of_mem (ht' : t' ∈ rest) : s.Reserves t' ∧ t'.branch ≠ some b := by
  refine ⟨h.steady.tail t' (by rw [h.tasks]; exact ht'), fun hbranch => (nodup_branches h).1 ?_⟩
  rw [← hbranch]
  exact mem_map_of_mem ht'

/-- No task that is left has a branch that leads to the node. -/
theorem Gathered.branch_ne (hc : Gathered s t b c) (ht' : t' ∈ rest) : t'.branch ≠ some c := by
  obtain ⟨hreserved, hne⟩ := reserves_of_mem h ht'
  rcases hc with rfl | ⟨p, hp, hc⟩
  · exact hne
  · exact fun hbranch => (hreserved c hbranch).2 t.addr p hp hc

/-- A branch that leads to the node is promised to nothing else. -/
theorem Gathered.not_others (hc : Gathered s t b c) (x : Int) : ¬ Others s t rest c x := by
  intro hx
  have hp := (promises_iff h).mpr (.inl hx)
  obtain rfl := h.steady.one c x t.addr hp (hc.promises h)
  rcases hx with ⟨t', ht', hbranch, -⟩ | ⟨p, hne, -⟩
  · exact hc.branch_ne h ht' hbranch
  · exact hne rfl

theorem Gathered.lt_size (hc : Gathered s t b c) : c < s.draft.size := by
  rcases hc with rfl | ⟨p, hp, hc⟩
  · exact (h.bounded.tasks t (h.tasks ▸ .head _)).branch c h.branch
  · exact h.bounded.pending _ p hp c hc

theorem Others.lt_size (hx : Others s t rest c x) : c < s.draft.size := by
  rcases hx with ⟨t', ht', hbranch, -⟩ | ⟨p, -, hp, hc⟩
  · exact (h.bounded.tasks t' (h.tasks ▸ mem_cons_of_mem t ht')).branch c hbranch
  · exact h.bounded.pending x p hp c hc

/-- Ending the other branches with gotos makes a draft ready. -/
theorem readies_of_assembles
    (hdue : ∀ p, s.pending.get? t.addr = some p → 1 < (subj.graph.preds.getD t.addr []).length)
    (ha : Assembles subj (scopeOf subj []) t b { s with tasks := rest } best d waiting) :
    Gathered s t b best ∧ Readies subj.graph s t b best d := by
  cases ha with
  | alone few =>
    refine ⟨.inl rfl, h.bounded.draft, rfl, Draft.keeps_of_nodes rfl fun _ _ => Iff.rfl,
      fun c hne hc => ?_, fun c i m hm => .inl hm⟩
    obtain ⟨p, hp, -⟩ := hc.resolve_left hne
    exact absurd ((few (hdue p hp)).1.symm.trans hp) (by simp)
  | @together p k best known last mem =>
    have hmem : ∀ {c : Nat}, Gathered s t b c ↔ c ∈ p.branches ++ [b] :=
      gathered_iff_of_pending known
    have hgathered : ∀ c ∈ (p.branches ++ [b]).eraseIdx k, Gathered s t b c := fun c hc =>
      hmem.mpr (mem_of_mem_eraseIdx hc)
    have hlt : ∀ c ∈ (p.branches ++ [b]).eraseIdx k, c < s.draft.size := fun c hc =>
      (hgathered c hc).lt_size h
    have hsame := foldl_endWithGoto_sameCode subj.graph.uncondJumps t.addr _ h.bounded.draft hlt
    obtain ⟨hkeeps, hclosed⟩ := Draft.foldl_endWithGoto_keeps (g := subj.graph) (P := s.Promises)
      (a := t.addr) _ h.bounded.draft hlt fun c hc => ⟨(hgathered c hc).promises h,
        fun x hx => h.steady.one c x t.addr hx ((hgathered c hc).promises h)⟩
    refine ⟨hmem.mpr (mem_of_getElem? mem), hsame.wellFormed, hsame.size, hkeeps,
      fun c hne hc => ?_, fun c i m hm => ?_⟩
    · refine hclosed c (.inl ?_)
      obtain ⟨i, hi⟩ := mem_iff_getElem?.mp (hmem.mp hc)
      refine mem_eraseIdx_iff_getElem?.mpr ⟨i, ?_, hi⟩
      rintro rfl
      exact hne (Option.some.inj (hi.symm.trans mem))
    · exact (Draft.getElem?_of_foldl_endWithGoto _ hlt hm).imp_right (And.imp_left (hgathered c))

/-- A goto to the node, at the end of the branch it is put in, is not needed. -/
theorem Readies.withoutGoto (hbest : Gathered s t b best) (hd : Readies g s t b best d) :
    Readies g s t b best (withoutGoto d best t.addr) := by
  unfold Structuring.withoutGoto
  split
  · rename_i hdrop
    obtain ⟨-, hlast⟩ := Bool.and_eq_true_iff.mp hdrop
    have hlast := of_decide_eq_true hlast
    refine ⟨hd.wellFormed.dropLast hlast, (Draft.size_dropLast best).trans hd.size,
      hd.keeps.trans (Draft.keeps_dropLast hlast (hbest.promises h)), fun c hne hc he => ?_,
      fun c i m hm => hd.nodes c i m (Draft.getElem?_of_nodes_dropLast hm)⟩
    refine hd.closed c hne hc ?_
    rwa [Draft.Entered, Draft.stop, Draft.nodes_dropLast, if_neg (Ne.symm hne)] at he
  · exact hd

end Gathered

/-! ## Steps -/

/-- A step from `s` to `s'` that adds the node `n` for its task. -/
structure Advances (g : Graph) (s : Build) (t : Task) (rest : List Task) (b : Nat) (s' : Build)
    (best : Nat) (d d₁ : Draft) (n : DraftNode) (joint : Option Int) (more : List Task) : Prop where
  gathered : Gathered s t b best
  readies : Readies g s t b best d
  adjoined : Adjoined g t.addr best d joint more d₁ n
  draft : s'.draft = d₁.add best n
  tasks : s'.tasks = more ++ rest
  new : ∀ t' ∈ more, t'.addr ∉ s'.visited
  waits : ∀ x p, s'.pending.get? x = some p →
    x ≠ t.addr ∧ s.pending.get? x = some p ∨ joint = some x ∧ p.branches = [best]
  still : ∀ x p, x ≠ t.addr → s.pending.get? x = some p → s'.pending.get? x = some p

namespace Advances

variable {best c : Nat} {x : Int} {t' : Task} {d d₁ : Draft} {n : DraftNode} {joint : Option Int}
  {more : List Task} (h : Takes subj.graph s t rest b)
  (ha : Advances subj.graph s t rest b s' best d d₁ n joint more)

/-- What the node itself leads to: the tasks for its successors, and what is foreseen behind it. -/
def Ahead (best : Nat) (joint : Option Int) (more : List Task) (c : Nat) (x : Int) : Prop :=
  (∃ t' ∈ more, t'.branch = some c ∧ t'.addr = x) ∨ c = best ∧ joint = some x

include ha

theorem promises (hx : s'.Promises c x) : Ahead best joint more c x ∨ Others s t rest c x := by
  rcases hx with ⟨t', ht', hc, hx⟩ | ⟨p, hp, hc⟩
  · exact (mem_append.mp (ha.tasks ▸ ht')).imp (fun ht' => .inl ⟨t', ht', hc, hx⟩)
      fun ht' => .inl ⟨t', ht', hc, hx⟩
  · rcases ha.waits x p hp with ⟨hne, hp⟩ | ⟨hjoint, hbranches⟩
    · exact .inr (.inr ⟨p, hne, hp, hc⟩)
    · rw [hbranches] at hc
      exact .inl (.inr ⟨mem_singleton.mp hc, hjoint⟩)

theorem promises_of_others (hx : Others s t rest c x) : s'.Promises c x := by
  rcases hx with ⟨t', ht', hc, hx⟩ | ⟨p, hne, hp, hc⟩
  · exact .inl ⟨t', ha.tasks ▸ mem_append_right _ ht', hc, hx⟩
  · exact .inr ⟨p, ha.still x p hne hp, hc⟩

theorem branch_of_mem (ht' : t' ∈ more) (hc : t'.branch = some c) :
    c = best ∨ s.draft.size ≤ c := by
  obtain ⟨c', hc', hcases⟩ := ha.adjoined.branches t' ht'
  obtain rfl := Option.some.inj (hc.symm.trans hc')
  rwa [ha.readies.size] at hcases

theorem branch_of_ahead (hx : Ahead best joint more c x) : c = best ∨ s.draft.size ≤ c := by
  rcases hx with ⟨t', ht', hc, -⟩ | ⟨rfl, -⟩
  · exact ha.branch_of_mem ht' hc
  · exact .inl rfl

include h

theorem best_lt : best < s.draft.size ∧ best < d₁.size := by
  have hlt := ha.gathered.lt_size h
  have hsize := ha.readies.size
  have hle := ha.adjoined.size
  exact ⟨hlt, by omega⟩

/-- The step leads nothing elsewhere. -/
theorem keeps : Draft.Keeps subj.graph s.draft s.Promises s'.draft s'.Promises := by
  have hpromised := ha.gathered.promises h
  rw [ha.draft]
  refine (ha.readies.keeps.trans (Draft.keeps_of_nodes ha.adjoined.nodes fun _ _ => Iff.rfl)).trans
    (Draft.keeps_add (ha.best_lt h).2 ha.adjoined.start
      (fun x hx => h.steady.one best x t.addr hx hpromised) hpromised (fun c hne he x hx => ?_)
      fun c q k hne hheld hnone x hx => ?_)
  · -- The other branches that lead to the node are closed by now.
    rcases (promises_iff h).mp hx with hx | ⟨hc, -⟩
    · exact ha.promises_of_others hx
    · refine absurd ?_ (ha.readies.closed c hne hc)
      rwa [Draft.Entered, Draft.stop, ha.adjoined.nodes] at he
  · rcases ha.promises hx with hx | hx
    · -- A branch that is held is not one of the new ones.
      obtain ⟨m, hm, href⟩ := hheld
      rw [ha.adjoined.nodes] at hm
      have hlt := (ha.readies.wellFormed.refs q c (mem_flatMap.mpr ⟨m, mem_of_getElem? hm, href⟩)).2
      rw [ha.readies.size] at hlt
      have := (ha.branch_of_ahead hx).resolve_left hne
      omega
    · exact hnone x ((promises_iff h).mpr (.inl hx))

theorem one {x' : Int} (hx : s'.Promises c x) (hx' : s'.Promises c x') : x = x' := by
  -- What lies ahead of the node is at ends where nothing else is promised.
  have hnot : ∀ {x x'}, Ahead best joint more c x → ¬ Others s t rest c x' := by
    intro x x' hx hx'
    rcases ha.branch_of_ahead hx with rfl | hle
    · exact ha.gathered.not_others h x' hx'
    · have := hx'.lt_size h
      omega
  rcases ha.promises hx with hx | hx <;> rcases ha.promises hx' with hx' | hx'
  · rcases hx with ⟨t₁, ht₁, hc₁, rfl⟩ | ⟨hc, hjoint⟩ <;>
      rcases hx' with ⟨t₂, ht₂, hc₂, rfl⟩ | ⟨hc', hjoint'⟩
    · rw [inj_on_of_nodup_map ha.adjoined.nodup ht₁ ht₂ (hc₁.trans hc₂.symm)]
    · exact ha.adjoined.joint t₁ ht₁ (hc' ▸ hc₁) x' hjoint'
    · exact (ha.adjoined.joint t₂ ht₂ (hc ▸ hc₂) x hjoint).symm
    · exact Option.some.inj (hjoint.symm.trans hjoint')
  · exact absurd hx' (hnot hx)
  · exact absurd hx (hnot hx')
  · exact h.steady.one c x x' ((promises_iff h).mpr (.inl hx)) ((promises_iff h).mpr (.inl hx'))

/-- Only the branch of the node grows, and the others that lead to it. -/
theorem nodes_eq_nil (hne : c ≠ best) (hc : ¬ Gathered s t b c) (hempty : s.draft.nodes c = []) :
    s'.draft.nodes c = [] := by
  rw [ha.draft, Draft.nodes_add (ha.best_lt h).2, if_neg (Ne.symm hne), ha.adjoined.nodes]
  refine eq_nil_iff_forall_not_mem.mpr fun m hm => ?_
  obtain ⟨i, hi⟩ := mem_iff_getElem?.mp hm
  rcases ha.readies.nodes c i m hi with hi | ⟨hgathered, -⟩
  · rw [hempty] at hi
    cases hi
  · exact hc hgathered

theorem reserves (ht' : t' ∈ rest) : s'.Reserves t' := by
  intro c hc
  obtain ⟨hempty, hfree⟩ := (reserves_of_mem h ht').1 c hc
  have hgathered : ¬ Gathered s t b c := fun hg => hg.branch_ne h ht' hc
  have hne : c ≠ best := fun hcb => hgathered (hcb ▸ ha.gathered)
  refine ⟨ha.nodes_eq_nil h hne hgathered hempty, fun x p hp hmem => ?_⟩
  rcases ha.waits x p hp with ⟨-, hp⟩ | ⟨-, hbranches⟩
  · exact hfree x p hp hmem
  · rw [hbranches] at hmem
    exact hne (mem_singleton.mp hmem)

theorem reserves_new (ht' : t' ∈ more.tail) : s'.Reserves t' := by
  intro c hc
  obtain ⟨c', hc', hle⟩ := ha.adjoined.tail t' ht'
  obtain rfl := Option.some.inj (hc.symm.trans hc')
  rw [ha.readies.size] at hle
  have hlt := (ha.best_lt h).1
  refine ⟨ha.nodes_eq_nil h (by omega) (fun hg => ?_) (Draft.nodes_of_size_le hle),
    fun x p hp hmem => ?_⟩
  · have := hg.lt_size h
    omega
  · rcases ha.waits x p hp with ⟨-, hp⟩ | ⟨-, hbranches⟩
    · have := h.bounded.pending x p hp c hmem
      omega
    · rw [hbranches] at hmem
      have := mem_singleton.mp hmem
      omega

theorem flows (haddr : t.addr ≠ noAddr) : s'.draft.Flows subj.graph s'.Promises := by
  refine h.steady.flows.keep (ha.keeps h) fun c i m hm => ?_
  rw [ha.draft] at hm
  rcases Draft.getElem?_of_nodes_add (ha.best_lt h).2 hm with hm | ⟨rfl, rfl, rfl⟩
  · rw [ha.adjoined.nodes] at hm
    refine (ha.readies.nodes c i m hm).imp_right ?_
    rintro ⟨-, rfl⟩
    exact haddr
  · have hstop : d₁.stop c = d.stop c := by rw [Draft.stop, ha.adjoined.nodes, Draft.stop]
    rw [hstop, ha.draft]
    refine .inr (ha.adjoined.leads _ (fun t' ht' c hc => ?_) fun c hle hnone x hx => ?_)
    · exact .inl ⟨t', ha.tasks ▸ mem_append_left _ ht', hc, rfl⟩
    · rw [ha.readies.size] at hle
      rcases ha.promises hx with (⟨t', ht', hc, -⟩ | ⟨rfl, -⟩) | hx
      · exact hnone t' ht' hc
      · have := (ha.best_lt h).1
        omega
      · have := hx.lt_size h
        omega

/-- What a task has promised is added to the draft, and what follows is promised in turn. -/
theorem steady (haddr : t.addr ≠ noAddr) : s'.Steady subj.graph where
  nodup := by
    rw [ha.tasks, map_append, nodup_append]
    refine ⟨ha.adjoined.nodup, (nodup_branches h).2, ?_⟩
    intro c hc c' hc' heq
    obtain ⟨t₁, ht₁, rfl⟩ := mem_map.mp hc
    obtain ⟨t₂, ht₂, rfl⟩ := mem_map.mp hc'
    obtain ⟨c, hc, -⟩ := ha.adjoined.branches t₁ ht₁
    rcases ha.branch_of_mem ht₁ hc with rfl | hle
    · exact ha.gathered.branch_ne h ht₂ (heq ▸ hc)
    · have := (h.bounded.tasks t₂ (h.tasks ▸ mem_cons_of_mem t ht₂)).branch c (heq ▸ hc)
      omega
  tail t' ht' := by
    rw [ha.tasks] at ht'
    cases more with
    | nil => exact ha.reserves h (mem_of_mem_tail ht')
    | cons t₁ more =>
      rcases mem_append.mp ht' with ht' | ht'
      · exact ha.reserves_new h ht'
      · exact ha.reserves h ht'
  top t' ht' hvisited c hc := by
    rw [ha.tasks] at ht'
    cases more with
    | nil => exact (ha.reserves h (mem_of_mem_head? ht') c hc).1
    | cons t₁ more =>
      obtain rfl : t₁ = t' := Option.some.inj ht'
      exact absurd hvisited (ha.new t₁ (.head _))
  one c x x' hx hx' := ha.one h hx hx'
  held c hc hlt := by
    by_cases hold : c < s.draft.size
    · obtain ⟨q, k, hheld⟩ := h.steady.held c hc hold
      exact ⟨q, k, (ha.keeps h).holds hheld⟩
    · rw [ha.draft, Draft.size_add] at hlt
      refine ⟨best, d₁.stop best, n, ?_, ha.adjoined.refs c (by rw [ha.readies.size]; omega) hlt⟩
      rw [ha.draft]
      exact Draft.getElem?_stop_add (ha.best_lt h).2 n
  flows := ha.flows h haddr

end Advances

namespace Takes

variable (h : Takes subj.graph s t rest b) (hsubj : subj.Loopless) (harrives : s.Arrives subj.graph)

include h hsubj harrives in
/-- A task that leads back to a node keeps its promise by a goto. -/
theorem of_back (haddr : t.addr ≠ noAddr) (known : t.addr ∈ s.visited) {needed : Bool}
    (needs : needsGoto subj (scopeOf subj []) (s.draft.nodes b) t.addr = .ok needed)
    (draft : s'.draft = if needed then s.draft.add b (.goto t.addr) else s.draft)
    (tasks : s'.tasks = rest) (pending : s'.pending = s.pending) : s'.Steady subj.graph := by
  have hmem : t ∈ s.tasks := h.tasks ▸ .head _
  have hempty : s.draft.nodes b = [] := h.steady.top t (by rw [h.tasks]; exact rfl) known b h.branch
  have hentry : t.addr ≠ subj.graph.entry := by
    cases hsource : t.source with
    | none =>
      rw [(harrives.first t hmem hsource).2.2] at known
      cases known
    | some q =>
      rintro heq
      have hedge := (harrives.sources t hmem q hsource).2
      rw [heq] at hedge
      exact hsubj.acyclic.not_edge_entry hsubj.graph q hedge
  -- An empty branch needs the goto, unless it leads back to the entry.
  obtain rfl : needed = true := by
    have hstart : (scopeOf subj []).start = subj.graph.entry := rfl
    rw [needsGoto, hstart, if_neg hentry, hempty] at needs
    exact (Except.ok.inj needs).symm
  have hnone : ∀ p, s.pending.get? t.addr ≠ some p :=
    fun p hp => (harrives.pending _ p hp).new known
  have hadvances : Advances subj.graph s t rest b s' b s.draft s.draft (.goto t.addr) none [] := by
    refine ⟨.inl rfl, ⟨h.bounded.draft, rfl, Draft.keeps_of_nodes rfl fun _ _ => Iff.rfl,
      fun c hne hc => ?_,
      fun c i m hm => .inl hm⟩, ⟨rfl, le_rfl, rfl, fun c hle hlt => absurd hlt (by omega),
        forall_mem_nil _,
      forall_mem_nil _, nodup_nil, forall_mem_nil _, fun P _ _ => haddr⟩, draft, tasks,
      forall_mem_nil _, fun x p hp => ?_, fun x p _ hp => ?_⟩
    · obtain ⟨p, hp, -⟩ := hc.resolve_left hne
      exact absurd hp (hnone p)
    · rw [pending] at hp
      refine .inl ⟨?_, hp⟩
      rintro rfl
      exact hnone p hp
    · rw [pending]
      exact hp
  exact hadvances.steady h haddr

include h in
/-- A node that is put off waits where its task would have put it. -/
theorem of_delays {p : Pending}
    (delays : Delays subj (scopeOf subj []) t b { s with tasks := rest } p)
    (draft : s'.draft = s.draft) (tasks : s'.tasks = rest)
    (pending : s'.pending = s.pending.insert t.addr p) : s'.Steady subj.graph := by
  have hget : ∀ x p', s'.pending.get? x = some p' ↔
      if t.addr = x then p = p' else s.pending.get? x = some p' := by
    intro x p'
    rw [pending, OrdMap.get?_insert]
    split
    · exact Option.some_inj
    · exact Iff.rfl
  have hbranches : ∀ c, c ∈ p.branches ↔ Gathered s t b c := by
    intro c
    cases delays with
    | first unknown =>
      rw [Gathered, mem_singleton]
      refine ⟨.inl, fun hc => hc.resolve_right ?_⟩
      rintro ⟨p, hp, -⟩
      exact absurd (unknown.symm.trans hp) (by simp)
    | again known => exact (gathered_iff_of_pending known).symm
  have hpromises : ∀ c x, s'.Promises c x ↔ s.Promises c x := by
    intro c x
    rw [promises_iff h, Build.Promises, Others, tasks, or_assoc]
    refine or_congr_right ?_
    simp only [hget]
    by_cases hx : t.addr = x
    · simp [hx, hbranches, eq_comm]
    · simp [hx, Ne.symm hx]
  have hreserves : ∀ t' ∈ rest, s'.Reserves t' := by
    intro t' ht' c hc
    obtain ⟨hempty, hfree⟩ := (reserves_of_mem h ht').1 c hc
    refine ⟨draft ▸ hempty, fun x p' hp' hmem => ?_⟩
    have hp' := (hget x p').mp hp'
    split at hp'
    · subst hp'
      exact ((hbranches c).mp hmem).branch_ne h ht' hc
    · exact hfree x p' hp' hmem
  -- The draft is the same, and so is what it promises.
  refine ⟨tasks ▸ (nodup_branches h).2, fun t' ht' => ?_, fun t' ht' _ c hc => ?_,
    fun c x x' hx hx' => ?_, draft ▸ h.steady.held, ?_⟩
  · exact hreserves t' (tasks ▸ mem_of_mem_tail ht')
  · exact (hreserves t' (tasks ▸ mem_of_mem_head? ht') c hc).1
  · exact h.steady.one c x x' ((hpromises c x).mp hx) ((hpromises c x').mp hx')
  · exact h.steady.flows.keep (Draft.keeps_of_nodes (by rw [draft]) hpromises) fun c i n hn =>
      .inl (draft ▸ hn)

include h hsubj harrives in
/-- A node that is placed is what its branches were promised. -/
theorem of_assembles (haddr : t.addr ≠ noAddr) (hnew : t.addr ∉ s.visited)
    (ha : Assembles subj (scopeOf subj []) t b { s with tasks := rest } best d waiting)
    (hn : Adjoins subj.graph t.addr best (withoutGoto d best t.addr) joint more d')
    (draft : s'.draft = d') (tasks : s'.tasks = more ++ rest)
    (visited : s'.visited = t.addr :: s.visited)
    (pending : s'.pending = foreseen subj.graph best joint waiting) : s'.Steady subj.graph := by
  have hdue : ∀ p, s.pending.get? t.addr = some p → 1 < (subj.graph.preds.getD t.addr []).length :=
    fun p hp =>
    (harrives.pending _ p hp).several
  have hwaiting := fun {a : Int} {p : Pending} => ha.get?_waiting (a := a) (p := p) hdue
  obtain ⟨hgathered, hreadies⟩ := readies_of_assembles h hdue ha
  have hreadies := hreadies.withoutGoto h hgathered
  obtain ⟨d₁, n, rfl, hadjoined⟩ :=
    hn.adjoined hsubj.graph (hreadies.size ▸ hgathered.lt_size h)
  have hadvances : Advances subj.graph s t rest b s' best (withoutGoto d best t.addr) d₁ n joint
      more := by
    refine ⟨hgathered, hreadies, hadjoined, draft, tasks, fun t' ht' => ?_, fun x p hp => ?_,
      fun x p hne hp => ?_⟩
    · obtain ⟨c, v, hleads, hedge⟩ := hn.tasks.1 t' ht'
      rw [hleads.addr, visited]
      refine not_mem_cons_of_ne_of_not_mem ?_ (harrives.not_mem_visited hnew (.single hedge))
      rintro rfl
      exact hsubj.acyclic _ (.single hedge)
    · rw [pending] at hp
      rcases get?_foreseen hp with hp | ⟨hjoint, -, rfl⟩
      · exact .inl (hwaiting.mp hp)
      · exact .inr ⟨hjoint, rfl⟩
    · rw [pending]
      exact get?_foreseen_of_get? (hwaiting.mpr ⟨hne, hp⟩)
  exact hadvances.steady h haddr

include h hsubj harrives in
theorem of_outcome (haddr : t.addr ≠ noAddr) (hout : Outcome subj t b { s with tasks := rest } s') :
    s'.Steady subj.graph := by
  cases hout with
  | back known needed needs draft tasks _ pending =>
    exact h.of_back hsubj harrives haddr known needs draft tasks pending
  | delayed _ _ p delays draft tasks _ pending => exact h.of_delays delays draft tasks pending
  | placed new best d d' waiting joint more assembles adjoins draft tasks visited pending =>
    exact h.of_assembles hsubj harrives haddr new assembles adjoins draft tasks visited pending

end Takes

end Structuring

namespace Build.Steady

variable {subj : Subject} {s : Build}

/-! ## Runs -/

theorem start (g : Graph) (labels : OrdMap Int String) (memo : PathMemo) :
    (Build.start g.entry labels memo).Steady g where
  nodup := nodup_singleton _
  tail := forall_mem_nil _
  top t _ hvisited := absurd hvisited not_mem_nil
  one b a a' ha ha' := by
    have hentry : ∀ {x}, (Build.start g.entry labels memo).Promises b x → x = g.entry := by
      rintro x (⟨t, ht, -, rfl⟩ | ⟨p, hp, -⟩)
      · rw [mem_singleton.mp ht]
      · cases hp
    rw [hentry ha, hentry ha']
  held b hb hlt := absurd (Nat.lt_one_iff.mp hlt) hb
  flows b i n hn := by
    have hnil : Draft.start.nodes b = [] := by
      cases b <;> rfl
    rw [show (Build.start g.entry labels memo).draft.nodes b = [] from hnil] at hn
    cases hn

theorem run (hsubj : subj.Loopless) (hnone : noAddr ∉ subj.graph.nodes.keys) {s₀ : Build}
    (h₀ : s₀.Steady subj.graph) (harrives₀ : s₀.Arrives subj.graph) (hacc₀ : Accounts subj s₀ s₀)
    (hrun : Run subj s₀ s) : s.Steady subj.graph := by
  induction hrun with
  | refl => exact h₀
  | tail hrun hstep ih =>
    obtain ⟨t, rest, htasks, hplace⟩ := hstep
    have harrives := harrives₀.run hsubj hrun
    have hacc := hacc₀.run hsubj.graph hrun
    obtain ⟨hloops, b, hb⟩ := harrives.plain_top htasks
    have haddr : t.addr ≠ noAddr := by
      intro heq
      exact hnone (heq ▸ hacc.tasks t (htasks ▸ .head _))
    exact Takes.of_outcome ⟨ih, hacc.bounded, htasks, hb⟩ hsubj harrives haddr
      (place_outcome hsubj hb hloops hplace)

end Build.Steady

end Decompiler
