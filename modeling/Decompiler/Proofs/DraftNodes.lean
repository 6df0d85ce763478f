import Decompiler.Proofs.Draft
import Decompiler.Proofs.Discovery
import Decompiler.Tree.Structuring
/-!
# What stands in a draft

Every node of a draft stands for a node of the graph, and every construct is found at the place that
its branches have recorded (`Draft.Fits`). Adding code and making branches keep this, and so does
dropping a last node. It is what the passes over the finished tree rest on: they ask blocks for
their instructions, and look for the code that follows a construct from its recorded place on.
-/

namespace Decompiler

variable {n : DraftNode}

/-- A node of a draft stands for a node of the graph. -/
def DraftNode.Of (g : Graph) : DraftNode → Prop
  | .block insns => ∃ a, g.nodes.get? a = some insns ∧ (g.next a).length ≤ 1
  | .ifGoto jump _ target _ =>
    ∃ other, g.next jump.addr = [target, other] ∨ g.next jump.addr = [other, target]
  | .andIf jump _ expected _ =>
    ∃ other, g.next jump.addr = [expected, other] ∨ g.next jump.addr = [other, expected]
  | .ifElse jump _ _ _ _ => ∃ next target, g.next jump.addr = [next, target]
  | .goto _ => True
  | .loop _ _ => True

namespace Draft

variable {g : Graph} {d : Draft}

/-! ## Fitting drafts -/

/-- A branch that has recorded the branch around it and the place of its construct there. -/
def At (d : Draft) (b : Nat) (k : Int) (c : Nat) : Prop :=
  ∃ br, d.branches[c]? = some br ∧ br.parent = some b ∧ br.place = k

variable {b c : Nat} {k : Int}

theorem At.parent_eq (h : d.At b k c) : d.parent c = some b := by
  obtain ⟨br, hbr, hparent, -⟩ := h
  rw [parent, hbr, Option.bind_some, hparent]

theorem At.place_eq (h : d.At b k c) : d.place c = k := by
  obtain ⟨br, hbr, -, hplace⟩ := h
  rw [place, hbr, Option.elim_some, hplace]

/-- Changing the nodes of a branch changes nothing that was recorded. -/
theorem At.modify (h : d.At b k c) (e : Nat) (f : List DraftNode → List DraftNode) :
    At ⟨d.branches.modify e fun br => { br with nodes := f br.nodes }⟩ b k c := by
  obtain ⟨br, hbr, hat⟩ := h
  simp only [At, Array.getElem?_modify, hbr, Option.map_some]
  split
  · exact ⟨_, rfl, hat⟩
  · exact ⟨_, rfl, hat⟩

/-- Every node stands for a node of the graph, and its branches have recorded where it is. -/
def Fits (g : Graph) (d : Draft) : Prop :=
  ∀ b (k : Nat) n, (d.nodes b)[k]? = some n → n.Of g ∧ ∀ c ∈ n.refs, d.At b k c

theorem Fits.of_mem (h : d.Fits g) (hn : n ∈ d.nodes b) : n.Of g := by
  obtain ⟨k, hk⟩ := List.mem_iff_getElem?.mp hn
  exact (h b k n hk).1

theorem fits_start (g : Graph) : start.Fits g := by
  intro b k n hn
  have hnil : start.nodes b = [] := by
    cases b <;> rfl
  rw [hnil] at hn
  cases hn

theorem Fits.add (h : d.Fits g) (b : Nat) (hn : n.Of g)
    (hrefs : ∀ c ∈ n.refs, d.At b (d.nodes b).length c) : (d.add b n).Fits g := by
  intro c k m hm
  by_cases hb : b < d.size
  · rw [nodes_add hb] at hm
    split at hm
    · rename_i heq
      obtain rfl := heq
      rw [List.getElem?_append] at hm
      split at hm
      · exact ⟨(h b k m hm).1, fun c' hc' => ((h b k m hm).2 c' hc').modify b (· ++ [n])⟩
      · obtain ⟨hk, rfl⟩ : k - (d.nodes b).length = 0 ∧ n = m := by
          simpa [List.getElem?_singleton] using hm
        obtain rfl : k = (d.nodes b).length := by omega
        exact ⟨hn, fun c' hc' => (hrefs c' hc').modify b (· ++ [n])⟩
    · exact ⟨(h c k m hm).1, fun c' hc' => ((h c k m hm).2 c' hc').modify b (· ++ [n])⟩
  · rw [add_of_size_le (Nat.le_of_not_lt hb)] at hm ⊢
    exact h c k m hm

/-- A node that holds no branches can be added anywhere. -/
theorem Fits.add_leaf (h : d.Fits g) (b : Nat) (hn : n.Of g) (hrefs : n.refs = []) :
    (d.add b n).Fits g :=
  h.add b hn fun c hc => by
    rw [hrefs] at hc
    cases hc

theorem At.newBranch (h : d.At b k c) (q : Option Nat) (level : Nat) (k' : Int) :
    (d.newBranch q level k').2.At b k c := by
  obtain ⟨br, hbr, hat⟩ := h
  refine ⟨br, ?_, hat⟩
  rw [Draft.newBranch, Array.getElem?_push,
    if_neg (Nat.ne_of_lt (Array.getElem?_eq_some_iff.mp hbr).1), hbr]

theorem at_newBranch (b level : Nat) (k : Int) : (d.newBranch (some b) level k).2.At b k d.size :=
  ⟨_, Array.getElem?_push_size, rfl, rfl⟩

theorem Fits.newBranch (h : d.Fits g) (q : Option Nat) (level : Nat) (k : Int) :
    (d.newBranch q level k).2.Fits g := by
  intro b i n hn
  rw [nodes_newBranch] at hn
  exact ⟨(h b i n hn).1, fun c hc => ((h b i n hn).2 c hc).newBranch q level k⟩

theorem Fits.dropLast (h : d.Fits g) (b : Nat) : (d.dropLast b).Fits g := by
  intro c k n hn
  have hold : (d.nodes c)[k]? = some n := by
    rw [nodes_dropLast] at hn
    split at hn
    · rename_i heq
      rw [List.getElem?_dropLast] at hn
      split at hn
      · exact heq ▸ hn
      · cases hn
    · exact hn
  exact ⟨(h c k n hold).1, fun c' hc' => ((h c k n hold).2 c' hc').modify b List.dropLast⟩

theorem endWithGoto_eq (uncond : List Int) (a : Int) (d : Draft) (b : Nat) :
    Structuring.endWithGoto uncond a d b = d.add b (.goto a) ∨
      Structuring.endWithGoto uncond a d b = d := by
  unfold Structuring.endWithGoto
  split
  · exact .inl rfl
  · exact (ite_eq_or_eq _ _ _).symm
  · exact (ite_eq_or_eq _ _ _).symm
  · exact .inl rfl

/-- Ending branches with gotos keeps a draft fitting. -/
theorem Fits.endWithGoto (h : d.Fits g) (uncond : List Int) (addr : Int) (b : Nat) :
    (Structuring.endWithGoto uncond addr d b).Fits g := by
  rcases endWithGoto_eq uncond addr d b with heq | heq
  · rw [heq]
    exact h.add_leaf b trivial rfl
  · rwa [heq]

theorem Fits.foldl_endWithGoto (uncond : List Int) (addr : Int) :
    ∀ (l : List Nat) {d : Draft}, d.Fits g →
    (l.foldl (Structuring.endWithGoto uncond addr) d).Fits g := by
  intro l
  induction l with
  | nil => intro d h; exact h
  | cons b l ih => intro d h; exact ih (h.endWithGoto uncond addr b)

end Draft

end Decompiler
