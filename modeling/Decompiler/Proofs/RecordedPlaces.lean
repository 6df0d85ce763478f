import Decompiler.Proofs.Progress
/-!
# Branches know where their constructs are

Each branch of a draft has recorded the branch around it and where its construct stands there. When
the structuring is done, the construct is found there, and it still is after any gotos at the ends
of branches are taken away: a goto holds no branch and nothing stands behind it. Since no branch
comes twice into the tree, a tree that has lost gotos is the tree of the draft that has lost them
(`Draft.exists_losesGoto`).
-/

namespace Decompiler

open List Relation Structuring

variable {l : List Node}

/-! ## Drafts that lose gotos -/

/-- A node of a draft as it is read off, with what is read off for its branches. -/
def DraftNode.read (place : Nat → Int) (tree : Nat → List Node) : DraftNode → Node
  | .block insns => .block (insns.map Item.insn)
  | .goto target => .goto target false
  | .ifGoto jump cond target slot => .ifGoto jump cond target slot none
  | .andIf jump cond expected slot => .andIf jump cond expected slot none
  | .ifElse jump expected next other slot =>
    .ifElse jump expected (place next) (tree next) (tree other) slot none
  | .loop endless body => .loop endless (place body) (tree body)

namespace DraftNode

variable {n : DraftNode} {place : Nat → Int} {tree tree' : Nat → List Node}

theorem read_congr (h : ∀ c ∈ n.refs, tree' c = tree c) :
    n.read place tree' = n.read place tree := by
  cases n with
  | ifElse jump expected next other slot =>
    simp [read, h next (by simp [refs]), h other (by simp [refs])]
  | loop endless body => simp [read, h body (by simp [refs])]
  | block | goto | ifGoto | andIf => rfl

/-- A construct that is read off has a branch of the draft where the construct of the tree has
one. -/
theorem exists_ref_of_read {hold : List Node → Node} (hole : Hole hold)
    (h : n.read place tree = hold l) (hrefs : n.refs.Nodup) : ∃ c ∈ n.refs, tree c = l ∧
      ∀ tree' : Nat → List Node, (∀ c' ∈ n.refs, c' ≠ c → tree' c' = tree c') →
        n.read place tree' = hold (tree' c) := by
  cases hole with
  | next =>
    cases n with
    | ifElse jump expected next other slot =>
      cases h
      refine ⟨next, by simp [refs], rfl, fun tree' h => ?_⟩
      rw [← h other (by simp [refs]) (by rintro rfl; simp [refs] at hrefs), read]
    | block | goto | ifGoto | andIf | loop => cases h
  | other =>
    cases n with
    | ifElse jump expected next other slot =>
      cases h
      refine ⟨other, by simp [refs], rfl, fun tree' h => ?_⟩
      rw [← h next (by simp [refs]) (by rintro rfl; simp [refs] at hrefs), read]
    | block | goto | ifGoto | andIf | loop => cases h
  | body =>
    cases n with
    | loop endless body =>
      cases h
      exact ⟨body, by simp [refs], rfl, fun tree' _ => rfl⟩
    | block | goto | ifGoto | andIf | ifElse => cases h

end DraftNode

namespace Draft

variable {d d' : Draft} {b : Nat}

/-- A branch of a draft loses the goto at its end. -/
def LosesGoto (d d' : Draft) : Prop :=
  ∃ b target, (d.nodes b).getLast? = some (.goto target) ∧ d' = d.dropLast b

/-- Every branch that a construct holds has recorded the branch in which the construct stands, and
its place there. -/
def Recorded (d : Draft) : Prop :=
  ∀ b (k : Nat) n, (d.nodes b)[k]? = some n → ∀ c ∈ n.refs, d.parent c = some b ∧ d.place c = k

theorem Fits.recorded {g : Graph} (h : d.Fits g) : d.Recorded := by
  intro b k n hn c hc
  have hat := (h b k n hn).2 c hc
  exact ⟨hat.parent_eq, hat.place_eq⟩

theorem tree_succ (fuel b : Nat) :
    d.tree (fuel + 1) b = (d.nodes b).map (DraftNode.read d.place (d.tree fuel)) := by
  rw [tree]
  refine map_congr_left fun n _ => ?_
  cases n <;> rfl

theorem place_dropLast (b : Nat) : (d.dropLast b).place = d.place := by
  funext c
  simp only [place, dropLast, Array.getElem?_modify]
  split
  · cases d.branches[c]? <;> rfl
  · rfl

/-- A tree stays as it is if the branch that is changed is not part of it. -/
theorem tree_dropLast :
    ∀ {fuel c : Nat}, b ∉ d.below fuel c → (d.dropLast b).tree fuel c = d.tree fuel c := by
  intro fuel
  induction fuel with
  | zero => intro c _; rfl
  | succ fuel ih =>
    intro c hb
    obtain ⟨hne, hrefs⟩ := not_or.mp (mt mem_cons.mpr hb)
    rw [tree_succ, tree_succ, nodes_dropLast, if_neg hne, place_dropLast]
    refine map_congr_left fun n hn => DraftNode.read_congr fun e he => ih fun hin => hrefs ?_
    exact mem_flatMap.mpr ⟨e, mem_flatMap.mpr ⟨n, hn, he⟩, hin⟩

/-- Where the tree below a branch loses a goto, the draft can lose it. -/
theorem exists_losesGoto (hwf : d.WellFormed) :
    ∀ {fuel c : Nat} {l : List Node}, Decompiler.LosesGoto (d.tree fuel c) l →
    ∃ b target, b ∈ d.below fuel c ∧ (d.nodes b).getLast? = some (.goto target) ∧
      (d.dropLast b).tree fuel c = l := by
  intro fuel
  induction fuel with
  | zero =>
    intro c l h
    generalize htree : d.tree 0 c = t at h
    cases h <;> simp [tree] at htree
  | succ fuel ih =>
    intro c l h
    have hmem : ∀ {n e}, n ∈ d.nodes c → e ∈ n.refs → e ∈ d.refsOf c :=
      fun hn he => mem_flatMap.mpr ⟨_, hn, he⟩
    generalize htree : d.tree (fuel + 1) c = t at h
    rw [tree_succ] at htree
    cases h with
    | last front target =>
      obtain ⟨l₁, l₂, hnodes, rfl, hlast⟩ := map_eq_append_iff.mp htree
      obtain ⟨n, rfl, hn⟩ := map_eq_singleton_iff.mp hlast
      obtain rfl : n = .goto target := by
        cases n with
        | goto => cases hn; rfl
        | block | ifGoto | andIf | ifElse | loop => cases hn
      refine ⟨c, target, .head _, by rw [hnodes, List.getLast?_concat], ?_⟩
      rw [tree_succ, nodes_dropLast, if_pos rfl, hnodes, dropLast_concat, place_dropLast]
      refine map_congr_left fun n hn => DraftNode.read_congr fun e he => tree_dropLast fun hin => ?_
      -- What is inside a branch comes after it.
      have hle := le_of_mem_below hwf hin
      have hlt := (hwf.refs c e (hmem (hnodes ▸ mem_append_left _ hn) he)).1
      omega
    | inside front rest hole hloses =>
      obtain ⟨l₁, l₂, hnodes, rfl, hrest⟩ := map_eq_append_iff.mp htree
      obtain ⟨n, l₃, rfl, hn, rfl⟩ := map_eq_cons_iff.mp hrest
      have hnodup := hwf.nodup_refsOf c
      rw [refsOf, hnodes, flatMap_append, flatMap_cons] at hnodup
      obtain ⟨-, hnodup, hfront⟩ := nodup_append.mp hnodup
      obtain ⟨hrefs, -, hback⟩ := nodup_append.mp hnodup
      obtain ⟨e, he, rfl, hread⟩ := DraftNode.exists_ref_of_read hole hn hrefs
      obtain ⟨b, target, hb, hlast, rfl⟩ := ih hloses
      have hin : e ∈ d.refsOf c := hmem (n := n) (by simp [hnodes]) he
      -- No other branch that is held here has the changed one inside.
      have hsame : ∀ m ∈ d.nodes c, ∀ e' ∈ m.refs, e' ≠ e →
          (d.dropLast b).tree fuel e' = d.tree fuel e' :=
        fun m hm e' he' hne => tree_dropLast (disjoint_below hwf hin (hmem hm he') hne.symm b hb)
      have hbc : b ≠ c := by
        have hle := le_of_mem_below hwf hb
        have hlt := (hwf.refs c e hin).1
        omega
      refine ⟨b, target, .tail _ (mem_flatMap.mpr ⟨e, hin, hb⟩), hlast, ?_⟩
      rw [tree_succ, nodes_dropLast, if_neg hbc, place_dropLast]
      rw [hnodes] at hsame ⊢
      rw [map_append, map_cons, hread _ (hsame n (by simp))]
      refine congrArg₂ _ (map_congr_left fun m hm => ?_)
        (congrArg _ (map_congr_left fun m hm => ?_))
      · refine DraftNode.read_congr fun e' he' => hsame m (by simp [hm]) e' he' ?_
        exact hfront e' (mem_flatMap.mpr ⟨m, hm, he'⟩) e (mem_append_left _ he)
      · refine DraftNode.read_congr fun e' he' => hsame m (by simp [hm]) e' he' ?_
        exact (hback e he e' (mem_flatMap.mpr ⟨m, hm, he'⟩)).symm

theorem WellFormed.exists_toTree (hwf : d.WellFormed)
    (h : ReflTransGen Decompiler.LosesGoto d.toTree l) :
    ∃ d', ReflTransGen LosesGoto d d' ∧ d'.WellFormed ∧ d'.toTree = l := by
  induction h with
  | refl => exact ⟨d, .refl, hwf, rfl⟩
  | tail _ hstep ih =>
    obtain ⟨d', hreach, hwf', rfl⟩ := ih
    obtain ⟨b, target, -, hlast, rfl⟩ := exists_losesGoto hwf' hstep
    refine ⟨d'.dropLast b, hreach.tail ⟨b, target, hlast, rfl⟩, hwf'.dropLast hlast, ?_⟩
    show (d'.dropLast b).tree ((d'.dropLast b).size + 1) head = _
    rw [size_dropLast]
    rfl

theorem Fits.of_losesGoto {g : Graph} (h : d.Fits g) (hreach : ReflTransGen LosesGoto d d') :
    d'.Fits g := by
  induction hreach with
  | refl => exact h
  | tail _ hstep ih =>
    obtain ⟨b, target, -, rfl⟩ := hstep
    exact ih.dropLast b

end Draft

/-- When a function is structured, with any of its nests, every branch that a construct holds has
recorded where the construct stands. This stays so whatever gotos at the ends of branches are lost,
one after the other. Every tree that comes about when the finished tree loses gotos in this way is
the tree of such a draft, and dropping needless gotos leads to one of them, also if it is
stopped. -/
theorem branches_recorded {p p' : Program} (hp : p.Keyed) {entry : Int} {g₀ g : Graph}
    (hfound : Graph.discover entry p = .ok (some g₀) p') (hblocks : g₀.blocks p.arch = .ok g)
    {nest : LoopNest} (hnest : g.HasNest nest) {further : Bool} {labels : OrdMap Int String}
    {s : Build}
    (hbuild : build ⟨p.arch, g, nest, further⟩ (Build.start entry labels ∅) = .ok () s) :
    (∀ d, ReflTransGen Draft.LosesGoto s.draft d → d.Recorded) ∧
      (∀ tree, ReflTransGen LosesGoto s.draft.toTree tree →
        ∃ d, ReflTransGen Draft.LosesGoto s.draft d ∧ d.toTree = tree) ∧
      ReflTransGen LosesGoto s.draft.toTree (dropNeedlessGotos s.draft.toTree).value := by
  obtain ⟨hsubj, rfl⟩ := hnest.subject hp hfound hblocks further
  obtain ⟨hrun, -⟩ := run_of_placeAll hbuild
  have hway := (OnWay.start hsubj labels ∅).of_run hsubj hrun
  refine ⟨fun d hd => (hway.ready.fits.of_losesGoto hd).recorded, fun tree htree => ?_,
    dropNeedlessGotos_loses _⟩
  obtain ⟨d, hd, -, rfl⟩ := hway.accounts.bounded.draft.exists_toTree htree
  exact ⟨d, hd, rfl⟩

/-- A loop with a branch in two inside, one half of which ends in a goto: the branches have recorded
their places, and so have those of a draft whose tree is the one without needless gotos. -/
theorem branches_recorded_loop :
    ∃ (p' : Program) (g₀ g : Graph) (nest : LoopNest) (s : Build),
      Graph.discover 0 (OneByte.program [.run, .fork 4, .run, .jump 5, .run, .run, .jump 1]) =
      .ok (some g₀) p' ∧ g₀.blocks .x86 = .ok g ∧ g.loopNest = .ok nest ∧
      build ⟨.x86, g, nest, true⟩ (Build.start 0 ∅ ∅) = .ok () s ∧
      s.draft.branches.toList.map (fun br => (br.parent, br.place, br.nodes.length)) =
        [(none, -1, 2), (some 0, 1, 3), (some 1, 0, 2), (some 1, 0, 2)] ∧
      ∃ d, ReflTransGen Draft.LosesGoto s.draft d ∧ d.Recorded ∧
        d.toTree = (dropNeedlessGotos s.draft.toTree).value := by
  have hval : (OneByte.structured? [.run, .fork 4, .run, .jump 5, .run, .run, .jump 1] true).map
      (fun r =>
      r.build.draft.branches.toList.map fun br => (br.parent, br.place, br.nodes.length)) =
      some [(none, -1, 2), (some 0, 1, 3), (some 1, 0, 2), (some 1, 0, 2)] := by
    decide +kernel
  obtain ⟨r, hr, hbranches⟩ := Option.map_eq_some_iff.mp hval
  obtain ⟨p', g₀, hfound, hblocks, hnest, hbuild, -⟩ := OneByte.exists_of_structured? hr
  obtain ⟨hrecorded, htrees, hdrops⟩ := branches_recorded (OneByte.program_keyed _) hfound hblocks
    (Graph.hasNest_of_loopNest hnest) hbuild
  obtain ⟨d, hd, htree⟩ := htrees _ hdrops
  exact ⟨p', g₀, r.graph, r.nest, r.build, hfound, hblocks, hnest, hbuild, hbranches, d, hd,
    hrecorded d hd, htree⟩

end Decompiler
