import Decompiler.Proofs.Placement
import Decompiler.Proofs.TreeFlow
/-!
# Where a draft goes on

The branches of a draft are filled bit by bit. The end of a branch that control gets to is promised
to an address until the code for it is put there, or a goto. `Draft.Lands` says where control gets
that comes to a place of the draft: to the node there, to the address that the end is promised to,
or, at an end that nothing is promised, to what stands behind the construct that holds the branch.

Adding the promised code to a branch leaves it all as it was (`keeps_add`), and so do the other
operations on drafts. A draft in which every node leads on to its successors (`Draft.Flows`) becomes
code that goes the ways of the graph, once all promises are kept (`Draft.Flows.toTree`).
-/

namespace Decompiler

open List

variable {g : Graph} {n : DraftNode} {k b c q i fuel : Nat} {after : Option Int}

/-! ## Places -/

/-- Where control gets that comes to a node of a draft. -/
def DraftNode.start? : DraftNode → Option Int
  | .goto target => some target
  | n => n.key?

/-- Control gets past a node of a draft: it is no goto, and no block that jumps or stops. -/
def DraftNode.Passes (g : Graph) : DraftNode → Prop
  | .goto _ => False
  | .block insns =>
    (∀ i, insns.getLast? = some i → i.addr ∉ g.uncondJumps) ∧ ∀ i, insns.head? = some i →
      g.next i.addr ≠ []
  | _ => True

theorem DraftNode.passes_of_mem_refs (h : c ∈ n.refs) : n.Passes g := by
  cases n with
  | ifElse | loop | ifGoto | andIf => trivial
  | goto | block => cases h

namespace Draft

variable {d d' d'' : Draft} {P P' P'' : Nat → Int → Prop}

/-- The construct at a place holds a branch. -/
def Holds (d : Draft) (q k c : Nat) : Prop := ∃ n, (d.nodes q)[k]? = some n ∧ c ∈ n.refs

/-- Control may come to a place: what stands in front of it in its branch lets control pass. -/
def Entered (g : Graph) (d : Draft) (b i : Nat) : Prop :=
  ∀ j, i = j + 1 → ∃ n, (d.nodes b)[j]? = some n ∧ n.Passes g

/-- The end of a branch. -/
def stop (d : Draft) (b : Nat) : Nat := (d.nodes b).length

/-- Control does not get to the end of a branch. -/
def Closed (g : Graph) (d : Draft) (b : Nat) : Prop := ¬ d.Entered g b (d.stop b)

variable {b i c : Nat} {n m : DraftNode} {a : Int}

theorem closed_of_getLast? (h : (d.nodes b).getLast? = some n) (hn : ¬ n.Passes g) :
    d.Closed g b := by
  intro he
  obtain ⟨l, hl⟩ := List.getLast?_eq_some_iff.mp h
  obtain ⟨m, hm, hpass⟩ := he l.length (by rw [stop, hl, length_append, length_singleton])
  rw [hl, List.getElem?_append_right (Nat.le_refl _), Nat.sub_self] at hm
  obtain rfl : n = m := Option.some.inj hm
  exact hn hpass

/-- Control that comes to the place `i` of the branch `b` gets to an address, if the ends of the
branches are promised to addresses as `P` says. -/
inductive Lands (d : Draft) (P : Nat → Int → Prop) : (b i : Nat) → Int → Prop where
  | node {b i : Nat} {n : DraftNode} {a : Int} (hn : (d.nodes b)[i]? = some n)
    (ha : n.start? = some a) : Lands d P b i a
  | promised {b : Nat} {a : Int} (h : P b a) : Lands d P b (d.stop b) a
  | past {b q k : Nat} {a : Int} (hfree : ∀ x, ¬ P b x) (hheld : d.Holds q k b)
    (h : Lands d P q (k + 1) a) : Lands d P b (d.stop b) a

/-- At the end of a branch there is no node. -/
theorem Lands.of_stop (h : d.Lands P b (d.stop b) a) :
    P b a ∨ ∃ q k, d.Holds q k b ∧ d.Lands P q (k + 1) a := by
  generalize hi : d.stop b = i at h
  cases h with
  | promised hp => exact .inl hp
  | past _ hheld hl => exact .inr ⟨_, _, hheld, hl⟩
  | node hn =>
    have hlt := (List.getElem?_eq_some_iff.mp hn).1
    rw [← hi, stop] at hlt
    exact absurd hlt (Nat.lt_irrefl _)

/-! ## Drafts that are changed -/

/-- From `d` to `d'` nothing that control gets to is led elsewhere. -/
structure Keeps (g : Graph) (d : Draft) (P : Nat → Int → Prop) (d' : Draft)
    (P' : Nat → Int → Prop) : Prop where
  passing : ∀ (b i : Nat) (n : DraftNode), (d.nodes b)[i]? = some n → n.Passes g →
    (d'.nodes b)[i]? = some n
  node : ∀ (b i : Nat) (n : DraftNode) a, d.Entered g b i → (d.nodes b)[i]? = some n →
    n.start? = some a → d'.Lands P' b i a
  promised : ∀ b a, d.Entered g b (d.stop b) → P b a → d'.Lands P' b (d.stop b) a
  free : ∀ b q k, d.Entered g b (d.stop b) → (∀ x, ¬ P b x) → d.Holds q k b →
    d'.stop b = d.stop b ∧ ∀ x, ¬ P' b x

theorem Keeps.entered (h : Keeps g d P d' P') (he : d.Entered g b i) : d'.Entered g b i := by
  intro j hj
  obtain ⟨n, hn, hpass⟩ := he j hj
  exact ⟨n, h.passing b j n hn hpass, hpass⟩

theorem Keeps.holds (h : Keeps g d P d' P') (hc : d.Holds q k c) : d'.Holds q k c := by
  obtain ⟨n, hn, href⟩ := hc
  exact ⟨n, h.passing q k n hn (DraftNode.passes_of_mem_refs href), href⟩

theorem entered_succ (hn : (d.nodes b)[i]? = some n) (hpass : n.Passes g) :
    d.Entered g b (i + 1) := by
  intro j hj
  obtain rfl : i = j := Nat.succ.inj hj
  exact ⟨n, hn, hpass⟩

theorem Holds.entered (h : d.Holds q k c) : d.Entered g q (k + 1) := by
  obtain ⟨n, hn, href⟩ := h
  exact entered_succ hn (DraftNode.passes_of_mem_refs href)

theorem Lands.keep (h : Keeps g d P d' P') (hl : d.Lands P b i a) (he : d.Entered g b i) :
    d'.Lands P' b i a := by
  induction hl with
  | node hn ha => exact h.node _ _ _ _ he hn ha
  | promised hp => exact h.promised _ _ he hp
  | past hfree hheld _ ih =>
    obtain ⟨hstop, hfree'⟩ := h.free _ _ _ he hfree hheld
    rw [← hstop]
    exact .past hfree' (h.holds hheld) (ih hheld.entered)

theorem Keeps.trans (h : Keeps g d P d' P') (h' : Keeps g d' P' d'' P'') : Keeps g d P d'' P'' where
  passing b i n hn hpass := h'.passing b i n (h.passing b i n hn hpass) hpass
  node b i n a he hn ha := (h.node b i n a he hn ha).keep h' (h.entered he)
  promised b a he hp := (h.promised b a he hp).keep h' (h.entered he)
  free b q k he hfree hheld := by
    obtain ⟨hstop, hfree'⟩ := h.free b q k he hfree hheld
    obtain ⟨hstop', hfree''⟩ := h'.free b q k (hstop ▸ h.entered he) hfree' (h.holds hheld)
    exact ⟨hstop'.trans hstop, hfree''⟩

/-- A draft with the same nodes and the same promises. -/
theorem keeps_of_nodes (hnodes : d'.nodes = d.nodes) (hP : ∀ b a, P' b a ↔ P b a) :
    Keeps g d P d' P' where
  passing b i n hn _ := by rwa [hnodes]
  node b i n a _ hn ha := .node (by rwa [hnodes]) ha
  promised b a _ hp := by
    have hstop : d.stop b = d'.stop b := by rw [stop, stop, hnodes]
    rw [hstop]
    exact .promised ((hP b a).mpr hp)
  free b q k _ hfree _ := ⟨by rw [stop, stop, hnodes], fun x hx => hfree x ((hP b x).mp hx)⟩

theorem stop_add (hb : b < d.size) (n : DraftNode) (c : Nat) :
    (d.add b n).stop c = if b = c then d.stop b + 1 else d.stop c := by
  rw [stop, nodes_add hb]
  split
  · rw [length_append, length_singleton, stop]
  · rfl

theorem getElem?_nodes_add (hb : b < d.size) (h : (d.nodes c)[i]? = some m) :
    ((d.add b n).nodes c)[i]? = some m := by
  rw [nodes_add hb]
  split
  · rename_i hbc
    subst hbc
    rw [List.getElem?_append_left (List.getElem?_eq_some_iff.mp h).1]
    exact h
  · exact h

theorem getElem?_stop_add (hb : b < d.size) (n : DraftNode) :
    ((d.add b n).nodes b)[d.stop b]? = some n := by
  rw [nodes_add hb, if_pos rfl, stop, List.getElem?_append_right (Nat.le_refl _), Nat.sub_self]
  rfl

/-- What is promised at the end of a branch is added there. Promises at the new end are free to
choose, and elsewhere they stay, but where control does not get. -/
theorem keeps_add (hb : b < d.size) (ha : n.start? = some a) (hone : ∀ x, P b x → x = a)
    (hp : P b a) (hkept : ∀ c, c ≠ b → d.Entered g c (d.stop c) → ∀ x, P c x → P' c x)
    (hfree : ∀ c q k, c ≠ b → d.Holds q k c → (∀ x, ¬ P c x) → ∀ x, ¬ P' c x) :
    Keeps g d P (d.add b n) P' where
  passing c i m hm _ := getElem?_nodes_add hb hm
  node c i m x _ hm hx := .node (getElem?_nodes_add hb hm) hx
  promised c x he hx := by
    by_cases hc : c = b
    · subst hc
      rw [hone x hx]
      exact .node (getElem?_stop_add hb n) ha
    · have hstop : d.stop c = (d.add b n).stop c := by rw [stop_add hb, if_neg (Ne.symm hc)]
      rw [hstop]
      exact .promised (hkept c hc he x hx)
  free c q k _ hnone hheld := by
    have hc : c ≠ b := by
      rintro rfl
      exact hnone a hp
    exact ⟨by rw [stop_add hb, if_neg (Ne.symm hc)], hfree c q k hc hheld hnone⟩

theorem getElem?_of_nodes_add (hb : b < d.size) (h : ((d.add b n).nodes c)[i]? = some m) :
    (d.nodes c)[i]? = some m ∨ c = b ∧ i = d.stop b ∧ m = n := by
  rw [nodes_add hb] at h
  split at h
  · rename_i hbc
    subst hbc
    rw [List.getElem?_append] at h
    split at h
    · exact .inl h
    · rename_i hi
      obtain ⟨hk, rfl⟩ : i - (d.nodes b).length = 0 ∧ n = m := by
        simpa [List.getElem?_singleton] using h
      exact .inr ⟨rfl, by rw [stop]; omega, rfl⟩
  · exact .inl h

theorem getElem?_of_nodes_dropLast (h : ((d.dropLast b).nodes c)[i]? = some m) :
    (d.nodes c)[i]? = some m := by
  rw [nodes_dropLast] at h
  split at h
  · rename_i hbc
    subst hbc
    rw [List.getElem?_dropLast] at h
    split at h
    · exact h
    · cases h
  · exact h

/-- A goto is taken away at an end that is promised to its target. -/
theorem keeps_dropLast (hlast : (d.nodes b).getLast? = some (.goto a)) (hp : P b a) :
    Keeps g d P (d.dropLast b) P := by
  obtain ⟨l, hl⟩ := List.getLast?_eq_some_iff.mp hlast
  have hnodes : ∀ c, (d.dropLast b).nodes c = if b = c then l else d.nodes c := by
    intro c
    rw [nodes_dropLast, hl, dropLast_concat]
  have hsame : ∀ c i m, (d.nodes c)[i]? = some m → ¬ (c = b ∧ i = l.length ∧ m = .goto a) →
      ((d.dropLast b).nodes c)[i]? = some m := by
    intro c i m hm hnot
    rw [hnodes]
    split
    · rename_i hbc
      subst hbc
      rw [hl, List.getElem?_append] at hm
      split at hm
      · exact hm
      · rename_i hi
        obtain ⟨hk, hgoto⟩ : i - l.length = 0 ∧ DraftNode.goto a = m := by
          simpa [List.getElem?_singleton] using hm
        exact absurd ⟨rfl, by omega, hgoto.symm⟩ hnot
    · exact hm
  have hstop : ∀ c, c ≠ b → (d.dropLast b).stop c = d.stop c := by
    intro c hc
    rw [stop, hnodes, if_neg (Ne.symm hc), stop]
  have hclosed : d.Closed g b := closed_of_getLast? hlast id
  refine ⟨fun c i m hm hpass => hsame c i m hm ?_, fun c i m x _ hm hx => ?_, fun c x he hx => ?_,
    fun c q k _ hfree _ => ?_⟩
  · rintro ⟨-, -, rfl⟩
    exact hpass
  · by_cases hat : c = b ∧ i = l.length ∧ m = .goto a
    · -- The goto was here: the end of the branch now is, and it is promised to the same address.
      obtain ⟨rfl, rfl, rfl⟩ := hat
      obtain rfl : a = x := Option.some.inj hx
      have hend : l.length = (d.dropLast c).stop c := by rw [stop, hnodes, if_pos rfl]
      rw [hend]
      exact .promised hp
    · exact .node (hsame c i m hm hat) hx
  · have hc : c ≠ b := by
      rintro rfl
      exact hclosed he
    rw [← hstop c hc]
    exact .promised hx
  · have hc : c ≠ b := by
      rintro rfl
      exact hfree a hp
    exact ⟨hstop c hc, hfree⟩

/-! ## Ending branches with gotos -/

/-- Ending a branch with a goto to the address it is promised to closes it and leaves all else as it
was. -/
theorem endWithGoto_keeps (hb : b < d.size) (hone : ∀ x, P b x → x = a) (hp : P b a) :
    Keeps g d P (Structuring.endWithGoto g.uncondJumps a d b) P ∧
      (Structuring.endWithGoto g.uncondJumps a d b).Closed g b ∧
      ∀ c, c ≠ b → (Structuring.endWithGoto g.uncondJumps a d b).nodes c = d.nodes c := by
  have hadd : Keeps g d P (d.add b (.goto a)) P ∧ (d.add b (.goto a)).Closed g b ∧
      ∀ c, c ≠ b → (d.add b (.goto a)).nodes c = d.nodes c := by
    refine ⟨keeps_add hb rfl hone hp (fun c _ _ x hx => hx) fun c q k _ _ h => h, ?_,
      fun c hc => ?_⟩
    · refine closed_of_getLast? (n := .goto a) ?_ id
      rw [nodes_add hb, if_pos rfl, List.getLast?_concat]
    · rw [nodes_add hb, if_neg (Ne.symm hc)]
  have hsame : d.Closed g b → Keeps g d P d P ∧ d.Closed g b ∧ ∀ c, c ≠ b → d.nodes c = d.nodes c :=
    fun hclosed =>
    ⟨keeps_of_nodes rfl fun _ _ => Iff.rfl, hclosed, fun _ _ => rfl⟩
  unfold Structuring.endWithGoto
  split
  · exact hadd
  · rename_i target hlast
    split
    · exact hsame (closed_of_getLast? hlast id)
    · exact hadd
  · rename_i insns hlast
    split
    · rename_i huncond
      refine hsame (closed_of_getLast? hlast fun hpass => ?_)
      cases hi : insns.getLast? with
      | none => simp [hi] at huncond
      | some i => exact hpass.1 i hi (by simpa [hi] using huncond)
    · exact hadd
  · exact hadd

/-- Ending branches with gotos to the address they are promised to closes them and leaves all else
as it was. -/
theorem foldl_endWithGoto_keeps :
    ∀ (l : List Nat) {d : Draft}, d.WellFormed → (∀ b ∈ l, b < d.size) →
    (∀ b ∈ l, P b a ∧ ∀ x, P b x → x = a) →
    Keeps g d P (l.foldl (Structuring.endWithGoto g.uncondJumps a) d) P ∧
      ∀ b, b ∈ l ∨ d.Closed g b → (l.foldl (Structuring.endWithGoto g.uncondJumps a) d).Closed
        g b := by
  intro l
  induction l with
  | nil =>
    intro d _ _ _
    exact ⟨keeps_of_nodes rfl fun _ _ => Iff.rfl, fun b hb => hb.resolve_left not_mem_nil⟩
  | cons c l ih =>
    intro d hwf hl hp
    obtain ⟨hc, hl⟩ := forall_mem_cons.mp hl
    obtain ⟨⟨hpc, hone⟩, hp⟩ := forall_mem_cons.mp hp
    obtain ⟨hkeep, hclosed, hsame⟩ := endWithGoto_keeps (g := g) hc hone hpc
    have hcode := Structuring.endWithGoto_sameCode hwf g.uncondJumps a hc
    obtain ⟨hkeep', hclosed'⟩ := ih hcode.wellFormed (by rwa [hcode.size]) hp
    refine ⟨hkeep.trans hkeep', fun b hb => hclosed' b ?_⟩
    by_cases hbc : b = c
    · rw [hbc]
      exact .inr hclosed
    · rcases hb with hb | hb
      · exact .inl ((mem_cons.mp hb).resolve_left hbc)
      · refine .inr fun he => hb ?_
        rwa [Entered, stop, hsame b hbc] at he

/-- Nothing but gotos at the ends of branches is added. -/
theorem getElem?_of_foldl_endWithGoto {uncond : List Int} : ∀ (l : List Nat) {d : Draft} {c i : Nat}
    {m : DraftNode}, (∀ b ∈ l, b < d.size) →
    ((l.foldl (Structuring.endWithGoto uncond a) d).nodes c)[i]? = some m →
    (d.nodes c)[i]? = some m ∨ c ∈ l ∧ m = .goto a := by
  intro l
  induction l with
  | nil => intro d c i m _ h; exact .inl h
  | cons b l ih =>
    intro d c i m hl h
    obtain ⟨hb, hrest⟩ := forall_mem_cons.mp hl
    rw [foldl_cons] at h
    rcases endWithGoto_eq uncond a d b with heq | heq
    · rw [heq] at h
      rcases ih (by rwa [size_add]) h with h | ⟨hc, hm⟩
      · rcases getElem?_of_nodes_add hb h with h | ⟨rfl, -, hm⟩
        · exact .inl h
        · exact .inr ⟨.head _, hm⟩
      · exact .inr ⟨mem_cons_of_mem b hc, hm⟩
    · rw [heq] at h
      exact (ih hrest h).imp_right (And.imp_left (mem_cons_of_mem b))

/-! ## Nodes that lead on -/

end Draft

/-- A node at the place `i` of the branch `b` leads on to its successors; there are no loops, nor
jumps that leave one or narrow a condition. -/
def DraftNode.LeadsOn (g : Graph) (lands : Nat → Nat → Int → Prop) (b i : Nat) : DraftNode → Prop
  | .block insns => (DraftNode.block insns).Passes g →
    ∀ first, insns.head? = some first → ∀ v ∈ g.next first.addr, lands b (i + 1) v
  | .ifElse jump _ next other _ =>
    ∃ x y, g.next jump.addr = [x, y] ∧ lands next 0 x ∧ lands other 0 y
  | .goto target => target ≠ noAddr
  | .ifGoto .. | .andIf .. | .loop .. => False

namespace Draft

variable {d d' : Draft} {P P' : Nat → Int → Prop}

theorem entered_zero (b : Nat) : d.Entered g b 0 := by
  intro j hj
  cases hj

/-- A node that leads on still does so in a draft that has been changed. -/
theorem Keeps.leadsOn (h : Keeps g d P d' P') (hn : (d.nodes b)[i]? = some n)
    (hleads : n.LeadsOn g (d.Lands P) b i) : n.LeadsOn g (d'.Lands P') b i := by
  cases n with
  | block insns =>
    exact fun hpass first hfirst v hv =>
      (hleads hpass first hfirst v hv).keep h (entered_succ hn hpass)
  | ifElse =>
    obtain ⟨x, y, hnext, hx, hy⟩ := hleads
    exact ⟨x, y, hnext, hx.keep h (entered_zero _), hy.keep h (entered_zero _)⟩
  | goto => exact hleads
  | ifGoto | andIf | loop => exact hleads.elim

/-- Every node of the draft leads on to its successors. -/
def Flows (g : Graph) (d : Draft) (P : Nat → Int → Prop) : Prop :=
  ∀ (b i : Nat) (n : DraftNode), (d.nodes b)[i]? = some n → n.LeadsOn g (d.Lands P) b i

/-- A draft that has been changed flows on if what is new in it leads on. -/
theorem Flows.keep (h : d.Flows g P) (hkeep : Keeps g d P d' P')
    (hnew : ∀ (b i : Nat) (n : DraftNode), (d'.nodes b)[i]? = some n → (d.nodes b)[i]? = some n ∨
      n.LeadsOn g (d'.Lands P') b i) : d'.Flows g P' := by
  intro b i n hn
  rcases hnew b i n hn with hold | hleads
  · exact hkeep.leadsOn hold (h b i n hold)
  · exact hleads

/-! ## The finished tree -/

/-- A branch is held at one place only. -/
theorem Holds.unique (hfits : d.Fits g) {q' k' : Nat} (h : d.Holds q k c) (h' : d.Holds q' k' c) :
    q = q' ∧ k = k' := by
  obtain ⟨n, hn, hc⟩ := h
  obtain ⟨n', hn', hc'⟩ := h'
  have hat := (hfits q k n hn).2 c hc
  have hat' := (hfits q' k' n' hn').2 c hc'
  exact ⟨Option.some.inj (hat.parent_eq.symm.trans hat'.parent_eq),
    by exact_mod_cast hat.place_eq.symm.trans hat'.place_eq⟩

section Tree

variable (hwf : d.WellFormed) (hfits : d.Fits g) (hflows : d.Flows g P) (hdone : ∀ b a, ¬ P b a)

/-- What is behind a branch: where control gets that comes to its end. -/
def Behind (d : Draft) (P : Nat → Int → Prop) (b : Nat) (after : Option Int) : Prop :=
  ∀ a, d.Lands P b (d.stop b) a → after = some a

include hflows hdone in
/-- In the tree below a branch control gets to where it lands in the draft. -/
theorem branchStart_tree {a : Int} (hb : b < d.size) (hfuel : d.size ≤ b + fuel)
    (hafter : d.Behind P b after) (h : d.Lands P b i a) :
    branchStart after ((d.tree fuel b).drop i) = some a := by
  obtain ⟨fuel, rfl⟩ : ∃ n, fuel = n + 1 := ⟨fuel - 1, by omega⟩
  have hend : d.Lands P b (d.stop b) a → branchStart after ((d.tree (fuel + 1) b).drop (d.stop b)) =
      some a := by
    intro hl
    rw [drop_eq_nil_of_le (by rw [tree, length_map, stop]), branchStart]
    exact hafter a hl
  cases h with
  | promised hp => exact absurd hp (hdone _ _)
  | past hfree hheld hl => exact hend (.past hfree hheld hl)
  | @node _ _ n _ hn ha =>
    have hleads := hflows b i n hn
    obtain ⟨hi, rfl⟩ := List.getElem?_eq_some_iff.mp hn
    rw [tree, ← map_drop, drop_eq_getElem_cons hi, map_cons, branchStart]
    cases hm : (d.nodes b)[i] with
    | block insns =>
      rw [hm] at ha
      cases insns with
      | nil => cases ha
      | cons first rest => exact ha
    | goto | ifElse =>
      rw [hm] at ha
      exact ha
    | ifGoto | andIf | loop =>
      rw [hm] at hleads
      exact hleads.elim

include hfits hflows hdone in
/-- What is behind a construct is what is behind the branches it holds. -/
theorem behind_of_holds (hb : b < d.size) (hfuel : d.size ≤ b + fuel) (hafter : d.Behind P b after)
    (hheld : d.Holds b k c) : d.Behind P c (branchStart after ((d.tree fuel b).drop (k + 1))) := by
  intro a hl
  obtain hp | ⟨q, k', hheld', hl⟩ := hl.of_stop
  · exact absurd hp (hdone c a)
  · obtain ⟨rfl, rfl⟩ := hheld'.unique hfits hheld
    exact branchStart_tree hflows hdone hb hfuel hafter hl

/-- A block that stands in the draft goes to its successors. -/
theorem goesAlong_block (hg : g.WellFormed) (hends : EndsAsWritten g) {insns : List Insn}
    (hof : (DraftNode.block insns).Of g)
    (hleads : (DraftNode.block insns).LeadsOn g (fun _ _ v => after = some v) b i) :
    GoesAlong g ((Node.block (insns.map Item.insn)).flow g after) := by
  obtain ⟨a, hnode, hlen⟩ := hof
  obtain ⟨first, rest, rfl, haddr⟩ := hg.heads a insns hnode
  obtain ⟨last, hlast⟩ : ∃ last, (first :: rest).getLast? = some last :=
    ⟨_, List.getLast?_eq_some_getLast (cons_ne_nil _ _)⟩
  have hitem : ((first :: rest).map Item.insn).getLast?.bind Item.insn? = some last := by
    rw [List.getLast?_map, hlast]
    rfl
  intro e he v
  obtain rfl : e = (first.addr, g.exits first ((first :: rest).map Item.insn) after) :=
    mem_singleton.mp he
  rw [Graph.Edge, Graph.exits, hitem, Option.bind_some, haddr]
  have hkey : g.succs.contains a = true ↔ g.next a ≠ [] := by
    rw [OrdMap.contains_iff, ne_eq, Graph.next_eq_nil_iff hg, OrdMap.get?_eq_none, not_not]
  cases hends a _ last hnode hlast with
  | jumps w hnext _ htarget => rw [htarget, hnext]
  | stops hnext _ htarget =>
    rw [htarget, hnext]
    dsimp only
    rw [if_neg (by rw [hkey, hnext]; exact fun h => h rfl)]
  | branches x y hnext => simp [hnext] at hlen
  | runsOn hnext hunlisted htarget =>
    -- Control passes the block, so what is behind it is its successor.
    have hpass : (DraftNode.block (first :: rest)).Passes g := by
      refine ⟨fun i hi => ?_, fun i hi => ?_⟩
      · rw [hlast] at hi
        obtain rfl := Option.some.inj hi
        exact hunlisted
      · obtain rfl : first = i := Option.some.inj hi
        rw [haddr, hnext]
        exact cons_ne_nil _ _
    have hafter : after = some last.next :=
      hleads hpass first rfl last.next (by rw [haddr, hnext]; exact (.head _))
    rw [htarget, hnext, hafter]
    dsimp only
    rw [if_pos (hkey.mpr (by rw [hnext]; exact cons_ne_nil _ _)), Option.toList_some]

include hflows in
/-- The tree below a branch has no loops, and its gotos are made from nodes of the draft. -/
theorem branchLoopless_tree (fuel : Nat) : ∀ b, branchLoopless (d.tree fuel b) := by
  induction fuel with
  | zero => exact fun b => trivial
  | succ fuel ih =>
    intro b
    refine branchLoopless_iff.mpr fun m hm => ?_
    rw [tree] at hm
    obtain ⟨n, hn, rfl⟩ := mem_map.mp hm
    obtain ⟨k, hk⟩ := mem_iff_getElem?.mp hn
    have hleads := hflows b k n hk
    cases n with
    | block => trivial
    | goto => exact ⟨hleads, rfl⟩
    | ifElse jump expected next other slot => exact ⟨ih next, ih other⟩
    | ifGoto | andIf | loop => exact hleads.elim

include hwf hfits hflows hdone in
/-- The code of the tree below a branch goes the ways of the graph. -/
theorem goesAlong_tree (hg : g.WellFormed) (hends : EndsAsWritten g) :
    ∀ (fuel b : Nat) {after : Option Int},
    b < d.size → d.size ≤ b + fuel → d.Behind P b after →
      GoesAlong g (branchFlow g after (d.tree fuel b)) := by
  intro fuel
  induction fuel with
  | zero => intro b after hb hfuel _; omega
  | succ fuel ih =>
    intro b after hb hfuel hafter
    -- The branches that a construct holds are read with what is behind the construct.
    have hbelow : ∀ {k c : Nat}, d.Holds b k c → c < d.size ∧ d.size ≤ c + fuel ∧
        d.Behind P c (branchStart after ((d.tree (fuel + 1) b).drop (k + 1))) := by
      intro k c hheld
      obtain ⟨n, hn, hc⟩ := hheld
      obtain ⟨hlt, hsize⟩ := hwf.refs b c (mem_flatMap.mpr ⟨n, mem_of_getElem? hn, hc⟩)
      exact ⟨hsize, by omega, behind_of_holds hfits hflows hdone hb hfuel hafter ⟨n, hn, hc⟩⟩
    intro e he
    obtain ⟨k, m, hm, he⟩ := mem_branchFlow.mp he
    have hm' := hm
    rw [tree, List.getElem?_map] at hm'
    obtain ⟨n, hn, rfl⟩ := Option.map_eq_some_iff.mp hm'
    have hleads := hflows b k n hn
    cases n with
    | block insns =>
      refine goesAlong_block hg hends (b := b) (i := k)
        (hfits b k _ hn).1 (fun hpass first hfirst v hv => ?_) e he
      exact branchStart_tree hflows hdone hb hfuel hafter (hleads hpass first hfirst v hv)
    | goto => cases he
    | ifGoto | andIf | loop => exact hleads.elim
    | ifElse jump expected next other slot =>
      obtain ⟨x, y, hnext, hx, hy⟩ := hleads
      obtain ⟨hlt, hf, hc⟩ := hbelow ⟨_, hn, .head _⟩
      obtain ⟨hlt', hf', hc'⟩ := hbelow ⟨_, hn, .tail _ (.head _)⟩
      have hsx := branchStart_tree hflows hdone hlt hf hc hx
      have hsy := branchStart_tree hflows hdone hlt' hf' hc' hy
      rw [drop_zero] at hsx hsy
      rw [Node.flow, hsx, hsy] at he
      rcases mem_cons.mp he with rfl | he
      · intro v
        rw [Graph.Edge, hnext]
        exact Iff.rfl
      · rcases mem_append.mp he with he | he
        · exact ih next hlt hf hc e he
        · exact ih other hlt' hf' hc' e he

include hwf hfits hflows hdone in
/-- A draft whose nodes lead on, with no promises left, becomes code that goes the ways of the
graph. -/
theorem Flows.toTree (hg : g.WellFormed) (hends : EndsAsWritten g) :
    branchLoopless d.toTree ∧ GoesAlong g (branchFlow g none d.toTree) := by
  refine ⟨branchLoopless_tree hflows _ head,
    goesAlong_tree hwf hfits hflows hdone hg hends _ head hwf.head_lt ?_ fun a hl => ?_⟩
  · show d.size ≤ head + (d.size + 1)
    omega
  · -- The first branch is held by no construct: these hold branches made after their own.
    obtain hp | ⟨q, k, ⟨n, hn, hc⟩, -⟩ := hl.of_stop
    · exact absurd hp (hdone head a)
    · have hlt := (hwf.refs q head (mem_flatMap.mpr ⟨n, mem_of_getElem? hn, hc⟩)).1
      exact absurd hlt (Nat.not_lt_zero q)

end Tree

end Draft

end Decompiler
