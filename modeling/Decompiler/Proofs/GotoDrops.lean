import Decompiler.Proofs.TreeKeys
/-!
# Which gotos are dropped

The pass that drops gotos looks up what follows a branch while the tree is being changed. The answer
is that of the tree as it was: a construct looks at the nodes behind its place, which have not been
changed yet, and a last goto that is gone led to where the code around the branch goes on. So what
the pass does can be said of the tree as it was. A last goto goes exactly if it leads to the address
at which the code behind its branch starts (`branchTrimmed`), and the pass is stopped exactly if a
branch ends in a goto and what follows cannot be asked where it starts (`Site.Answered`). This holds
of all trees whose constructs have recorded where they are (`dropNeedlessGotos_gives`).
-/

namespace Decompiler

open List

/-! ## The code that follows -/

/-- The first node of the code behind a branch that is not passed over; `rests` is what comes behind
each construct around the branch, the innermost first. -/
def following : (rests : List (List Node)) → Option Node
  | [] => none
  | rest :: outer =>
    match rest.find? (fun n => !n.isPassedOver) with
    | some n => some n
    | none => following outer

/-- The address of the code behind a branch. -/
def startsAt (rests : List (List Node)) : Except Fault Int :=
  match following rests with
  | some n => n.firstAddr
  | none => .ok noAddr

theorem startsAt_cons (rest : List Node) (outer : List (List Node)) :
    startsAt (rest :: outer) = match rest.find? (fun n => !n.isPassedOver) with
      | some n => n.firstAddr
      | none => startsAt outer := by
  unfold startsAt
  rw [following]
  cases rest.find? (fun n => !n.isPassedOver) <;> rfl

variable {n : Node}

/-- The code behind a branch stands in one of the rests, and is not passed over. -/
theorem exists_mem_of_following : ∀ {rests : List (List Node)}, following rests = some n →
    (∃ rest ∈ rests, n ∈ rest) ∧ n.isPassedOver = false := by
  intro rests
  induction rests with
  | nil => intro h; cases h
  | cons rest outer ih =>
    intro h
    rw [following] at h
    cases hfind : rest.find? (fun n => !n.isPassedOver) with
    | some m =>
      rw [hfind] at h
      obtain rfl : m = n := Option.some.inj h
      exact ⟨⟨rest, .head _, mem_of_find?_eq_some hfind⟩, by simpa using List.find?_some hfind⟩
    | none =>
      rw [hfind] at h
      obtain ⟨⟨rest', hrest', hn⟩, hpassed⟩ := ih h
      exact ⟨⟨rest', .tail _ hrest', hn⟩, hpassed⟩

/-- What follows a node is the same in the tree as it was and in the tree as it is by then. -/
theorem followingAddr_behind {around : Surroundings} {outer : List (List Node)}
    (before rest : List Node) (n : Node) (haround : followingAddr around = startsAt outer)
    {needless : Bool}
    (hlast : needless = true → ∃ target, rest.getLast? = some (.goto target false) ∧
      followingAddr around = .ok target) :
    followingAddr ((before ++ n :: if needless then rest.dropLast else rest,
      (before.length : Int)) :: around) = startsAt (rest :: outer) := by
  have hdrop : ∀ after : List Node, (before ++ n :: after).drop ((before.length : Int) + 1).toNat =
      after := by
    intro after
    have hnat : ((before.length : Int) + 1).toNat = before.length + 1 := by omega
    rw [hnat, drop_append, drop_eq_nil_of_le (by omega), nil_append, Nat.add_sub_cancel_left]
    rfl
  rw [followingAddr, hdrop, startsAt_cons, haround]
  cases needless with
  | false => rfl
  | true =>
    obtain ⟨target, ht, hfollow⟩ := hlast rfl
    obtain ⟨l, rfl⟩ := List.getLast?_eq_some_iff.mp ht
    -- Only the goto is missing; the code around goes on where it leads.
    have hgoto : List.find? (fun n : Node => !n.isPassedOver) [.goto target false] =
        some (.goto target false) := rfl
    rw [if_pos rfl, dropLast_concat, List.find?_append, hgoto, ← haround, hfollow]
    cases l.find? (fun n => !n.isPassedOver) <;> rfl

/-- A node that can be asked where it starts: a block that begins with an instruction, a loop that
begins with such a block or an empty one, or anything else. -/
def Node.HasStart : Node → Prop
  | .block items => (items.head?.bind Item.insn?).isSome
  | .loop _ _ (.block items :: _) => items = [] ∨ (items.head?.bind Item.insn?).isSome
  | .loop .. => False
  | _ => True

theorem firstItem_addr_ok_iff {items : List Item} :
    (∃ a, (do (← firstItem items).addr : Except Fault Int) = .ok a) ↔
      (items.head?.bind Item.insn?).isSome := by
  cases items with
  | nil => exact iff_of_false (by rintro ⟨a, h⟩; cases h) (by simp)
  | cons item rest =>
    cases item with
    | insn i => exact iff_of_true ⟨i.addr, rfl⟩ rfl
    | gap | pseudo => exact iff_of_false (by rintro ⟨a, h⟩; cases h) (by simp [Item.insn?])

theorem Node.firstAddr_ok_iff (h : n.isPassedOver = false) :
    (∃ a, n.firstAddr = .ok a) ↔ n.HasStart := by
  cases n with
  | block items => exact firstItem_addr_ok_iff
  | loop endless place body =>
    cases body with
    | nil => exact iff_of_false (by rintro ⟨a, h⟩; cases h) id
    | cons m rest =>
      cases m with
      | block items =>
        cases items with
        | nil => exact iff_of_true ⟨noAddr, rfl⟩ (.inl rfl)
        | cons item items =>
          cases item with
          | insn i => exact iff_of_true ⟨noAddr, rfl⟩ (.inr rfl)
          | gap | pseudo =>
            exact iff_of_false (by rintro ⟨a, h⟩; cases h) (by simp [Node.HasStart, Item.insn?])
      | goto | comment | ifGoto | andIf | ifCond | ifElse | loop =>
        exact iff_of_false (by rintro ⟨a, h⟩; cases h) id
  | goto | ifElse => exact iff_of_true ⟨_, rfl⟩ trivial
  | comment | ifGoto | andIf | ifCond => cases h

theorem startsAt_ok_iff {rests : List (List Node)} :
    (∃ a, startsAt rests = .ok a) ↔ ∀ n, following rests = some n → n.HasStart := by
  unfold startsAt
  cases hf : following rests with
  | none => exact iff_of_true ⟨noAddr, rfl⟩ fun n hn => by cases hn
  | some n =>
    rw [Node.firstAddr_ok_iff (exists_mem_of_following hf).2]
    constructor
    · rintro h m hm
      exact Option.some.inj hm ▸ h
    · intro h
      exact h n rfl

/-! ## The branches of a tree -/

/-- A construct around a branch, with the code behind it: a branch in two, or a loop with its
body. -/
inductive Around where
  | fork (rest : List Node)
  | loop (body rest : List Node)

/-- The code behind a construct. -/
def Around.rest : Around → List Node
  | fork rest => rest
  | loop _ rest => rest

/-- A branch of a tree, and the constructs around it, the innermost first. -/
structure Site where
  around : List Around
  nodes : List Node

mutual

/-- The branches inside a node with `rest` behind it. -/
def Node.sites (rest : List Node) (outer : List Around) : Node → List Site
  | .ifElse _ _ _ next other _ _ =>
    (⟨.fork rest :: outer, next⟩ :: sitesIn (.fork rest :: outer) next) ++
      ⟨.fork rest :: outer, other⟩ :: sitesIn (.fork rest :: outer) other
  | .loop _ _ body => ⟨.loop body rest :: outer, body⟩ :: sitesIn (.loop body rest :: outer) body
  | _ => []

/-- The branches inside the nodes of a branch. -/
def sitesIn (outer : List Around) : List Node → List Site
  | [] => []
  | n :: rest => n.sites rest outer ++ sitesIn outer rest

end

/-- All branches of a tree. -/
def sites (tree : List Node) : List Site := ⟨[], tree⟩ :: sitesIn [] tree

/-- The code behind a branch, and behind each construct around it. -/
def Site.rests (s : Site) : List (List Node) := s.around.map Around.rest

/-- If the branch ends in a goto that may be dropped, then the code behind it can be asked where it
starts. -/
def Site.Answered (s : Site) : Prop :=
  ∀ target n, s.nodes.getLast? = some (.goto target false) → following s.rests = some n → n.HasStart

/-- The branch ends in a goto that may be dropped, to where the code behind it starts. -/
def Site.Drops (s : Site) (target : Int) : Prop :=
  s.nodes.getLast? = some (.goto target false) ∧ startsAt s.rests = .ok target

mutual

/-- A construct at position `k` has recorded where it is, and so have the constructs inside it. -/
def Node.InPlace (k : Nat) : Node → Prop
  | .ifElse _ _ place next other _ _ => place = k ∧ branchInPlace 0 next ∧ branchInPlace 0 other
  | .loop _ place body => place = k ∧ branchInPlace 0 body
  | _ => True

/-- The constructs in a branch from position `k` on have recorded where they are. -/
def branchInPlace (k : Nat) : List Node → Prop
  | [] => True
  | n :: rest => n.InPlace k ∧ branchInPlace (k + 1) rest

end

/-! ## The tree without needless gotos -/

/-- Whether a node is a goto that may be dropped, to where the code behind its branch starts. -/
def Node.needless (rests : List (List Node)) : Node → Bool
  | .goto target false => (startsAt rests).toOption = some target
  | _ => false

theorem Node.needless_iff {rests : List (List Node)} :
    n.needless rests = true ↔ ∃ target, n = .goto target false ∧ startsAt rests = .ok target := by
  have hok : ∀ target, (startsAt rests).toOption = some target ↔ startsAt rests = .ok target := by
    intro target
    cases startsAt rests <;> simp [Except.toOption]
  cases n with
  | goto target keep => cases keep <;> simp [Node.needless, hok]
  | block | comment | ifGoto | andIf | ifCond | ifElse | loop => simp [Node.needless]

mutual

/-- A node without the needless gotos inside it; `rests` is the code behind it, and behind each
construct around. -/
def Node.trimmed (rests : List (List Node)) : Node → Node
  | .ifElse jump expected place next other slot fused =>
    .ifElse jump expected place (branchTrimmed rests next) (branchTrimmed rests other) slot fused
  | .loop endless place body => .loop endless place (branchTrimmed rests body)
  | n => n

/-- A branch without the goto at its end, if that is needless, and without the needless gotos inside
its nodes. -/
def branchTrimmed (outer : List (List Node)) : List Node → List Node
  | [] => []
  | n :: rest =>
    if rest.isEmpty && n.needless outer then [] else n.trimmed (rest :: outer) ::
      branchTrimmed outer rest

end

/-! ## Changes that go through -/

namespace Edited

variable {α β : Type} {C D : Prop} {a : α} {b : β} {e : Edited α}

theorem andThen_fault {rest : α → β} {next : α → Edited β} :
    (e.andThen rest next).fault = none ↔ e.fault = none ∧ (next e.value).fault = none := by
  unfold Edited.andThen
  cases e.fault <;> simp

/-- A change goes through exactly if `C`, and then gives `a`. -/
def Gives (e : Edited α) (C : Prop) (a : α) : Prop := (e.fault = none ↔ C) ∧ (C → e.value = a)

theorem Gives.done : (done a).Gives True a := ⟨iff_of_true rfl trivial, fun _ => rfl⟩

theorem Gives.eq_done (h : e.Gives C a) (hc : C) : e = Edited.done a := by
  have hfault := h.1.mpr hc
  have hvalue := h.2 hc
  cases e with
  | mk value fault =>
    subst hfault hvalue
    rfl

theorem Gives.congr (h : e.Gives C a) (hiff : C ↔ D) : e.Gives D a :=
  ⟨h.1.trans hiff, fun hd => h.2 (hiff.mpr hd)⟩

theorem Gives.map (h : e.Gives C a) (f : α → β) : (e.map f).Gives C (f a) :=
  ⟨h.1, fun hc => congrArg f (h.2 hc)⟩

theorem Gives.andThen {rest : α → β} {next : α → Edited β} (h : e.Gives C a)
    (hnext : (next a).Gives D b) : (e.andThen rest next).Gives (C ∧ D) b := by
  have hfault : (e.andThen rest next).fault = none ↔ C ∧ D := by
    rw [andThen_fault, h.1]
    refine and_congr_right fun hc => ?_
    rw [h.2 hc, hnext.1]
  refine ⟨hfault, fun hcd => ?_⟩
  rw [(Edited.andThen_done (hfault.mpr hcd)).2, h.2 hcd.1]
  exact hnext.2 hcd.2

end Edited

/-! ## The pass -/

/-- Looking at the end of a branch and then going into it. -/
theorem gives_of_checked {α : Type} {around : Surroundings} {s : Site}
    (h : followingAddr around = startsAt s.rests) {C : Prop} {a : α} {stop : Fault → Edited α}
    {go : Bool → Edited α} (hstop : ∀ e, (stop e).fault ≠ none)
    (hgo : (go (s.nodes.getLast?.any (Node.needless s.rests))).Gives C a) :
    (match endsInNeedlessGoto around s.nodes with
      | .error e => stop e
      | .ok needless => go needless).Gives (s.Answered ∧ C) a := by
  by_cases hlast : ∃ target, s.nodes.getLast? = some (.goto target false)
  · obtain ⟨target, hlast⟩ := hlast
    have hanswered : s.Answered ↔ ∃ b, startsAt s.rests = .ok b := by
      rw [startsAt_ok_iff]
      exact ⟨fun hs n hn => hs target n hlast hn, fun hs _ n _ hn => hs n hn⟩
    simp only [endsInNeedlessGoto, hlast, h]
    rw [hlast] at hgo
    cases hs : startsAt s.rests with
    | error e =>
      have hnot : ¬ (s.Answered ∧ C) := by
        rintro ⟨ha, -⟩
        obtain ⟨b, hb⟩ := hanswered.mp ha
        rw [hs] at hb
        cases hb
      exact ⟨iff_of_false (hstop e) hnot, fun hc => absurd hc hnot⟩
    | ok b =>
      have hneed : Node.needless s.rests (.goto target false) = decide (target = b) := by
        simp [Node.needless, hs, Except.toOption, eq_comm]
      rw [Option.any_some, hneed] at hgo
      exact hgo.congr (iff_and_self.mpr fun _ => hanswered.mpr ⟨b, hs⟩)
  · -- There is nothing to drop, and what follows is not asked.
    have hends : endsInNeedlessGoto around s.nodes = .ok false := by
      unfold endsInNeedlessGoto
      split
      · rename_i target ht
        exact absurd ⟨target, ht⟩ hlast
      · rfl
    have hneed : s.nodes.getLast?.any (Node.needless s.rests) = false := by
      refine Bool.eq_false_iff.mpr fun hany => ?_
      obtain ⟨n, hn, hneedless⟩ := (Option.any_eq_true _ _).mp hany
      obtain ⟨target, rfl, -⟩ := Node.needless_iff.mp hneedless
      exact hlast ⟨target, hn⟩
    rw [hneed] at hgo
    simp only [hends]
    exact hgo.congr (iff_and_self.mpr fun _ target n ht => absurd ⟨target, ht⟩ hlast)

mutual

/-- What dropping gotos inside a node gives. -/
theorem Node.dropGotos_gives {here : Node → Int → Surroundings} {rest : List Node}
    {outer : List Around} {k : Nat}
    (hhere : ∀ m, followingAddr (here m k) = startsAt (rest :: outer.map Around.rest)) :
    ∀ n : Node, n.InPlace k → (n.dropGotos here).Gives (∀ s ∈ n.sites rest outer, s.Answered)
      (n.trimmed (rest :: outer.map Around.rest))
  | .ifElse jump expected place next other slot fused => by
    rintro ⟨rfl, hnext, hother⟩
    unfold Node.dropGotos
    have hnext' := branchDropGotos_gives (.fork rest :: outer)
      (hhere (.ifElse jump expected k next other slot fused)) [] next hnext fun _ => rfl
    -- The second branch is looked at when the first has been changed.
    have hother' := branchDropGotos_gives (.fork rest :: outer) (hhere (.ifElse jump expected k
      (branchTrimmed (rest :: outer.map Around.rest) next) other slot fused))
      [] other hother fun _ => rfl
    refine (gives_of_checked (s := ⟨.fork rest :: outer, next⟩) (hhere _) (fun e he => by cases he)
      (hnext'.andThen (gives_of_checked (s := ⟨.fork rest :: outer, other⟩) (hhere _)
        (fun e he => by cases he) (hother'.map (Node.ifElse jump expected k
          (branchTrimmed (rest :: outer.map Around.rest) next) · slot fused))))).congr ?_
    rw [Node.sites, forall_mem_append, forall_mem_cons, forall_mem_cons, and_assoc]
  | .loop endless place body => by
    rintro ⟨rfl, hbody⟩
    unfold Node.dropGotos
    have hbody' := branchDropGotos_gives (.loop body rest :: outer) (hhere (.loop endless k body))
      [] body hbody fun _ => rfl
    refine (gives_of_checked (s := ⟨.loop body rest :: outer, body⟩) (hhere _)
      (fun e he => by cases he) (hbody'.map (Node.loop endless k))).congr ?_
    rw [Node.sites, forall_mem_cons]
  | .block _ | .goto _ _ | .comment _ | .ifGoto .. | .andIf .. | .ifCond .. => fun _ =>
    Edited.Gives.done.congr (iff_of_true trivial (forall_mem_nil _))

/-- What dropping gotos in a branch gives. -/
theorem branchDropGotos_gives {around : Surroundings} (outer : List Around) {needless : Bool}
    (haround : followingAddr around = startsAt (outer.map Around.rest)) :
    ∀ (before nodes : List Node), branchInPlace before.length nodes →
      (nodes ≠ [] → needless = nodes.getLast?.any (Node.needless (outer.map Around.rest))) →
      (branchDropGotos around needless before nodes).Gives (∀ s ∈ sitesIn outer nodes, s.Answered)
        (branchTrimmed (outer.map Around.rest) nodes)
  | _, [] => fun _ _ => Edited.Gives.done.congr (iff_of_true trivial (forall_mem_nil _))
  | before, n :: rest => by
    rintro ⟨hn, hrest⟩ hneed
    have hlast := hneed (cons_ne_nil _ _)
    have hcond : (rest.isEmpty && n.needless (outer.map Around.rest)) =
        (needless && rest.isEmpty) := by
      cases rest with
      | nil => simp [hlast]
      | cons m rest => simp
    unfold branchDropGotos branchTrimmed sitesIn
    rw [hcond]
    by_cases hdrop : (needless && rest.isEmpty) = true
    · -- The last node goes; it is a goto, which holds no branches.
      obtain ⟨-, rfl⟩ : needless = true ∧ rest = [] := by simpa using hdrop
      obtain ⟨target, rfl, -⟩ :=
        Node.needless_iff.mp (Bool.and_eq_true_iff.mp (hcond.trans hdrop)).2
      rw [if_pos hdrop, if_pos hdrop]
      exact Edited.Gives.done.congr (iff_of_true trivial (forall_mem_nil _))
    · have htail : rest ≠ [] → needless =
          rest.getLast?.any (Node.needless (outer.map Around.rest)) := by
        intro hne
        rwa [List.getLast?_cons_of_ne_nil hne] at hlast
      have hgoto : needless = true → ∃ target, rest.getLast? = some (.goto target false) ∧
          followingAddr around = .ok target := by
        intro htrue
        have hne : rest ≠ [] := by
          rintro rfl
          simp [htrue] at hdrop
        obtain ⟨m, hm, hneedless⟩ := (Option.any_eq_true _ _).mp ((htail hne).symm.trans htrue)
        obtain ⟨target, rfl, hstarts⟩ := Node.needless_iff.mp hneedless
        exact ⟨target, hm, haround.trans hstarts⟩
      have hhere := fun m => followingAddr_behind before rest m haround hgoto
      have hrest' : branchInPlace (before ++ [n.trimmed (rest :: outer.map Around.rest)]).length
          rest := by
        rwa [length_append, length_singleton]
      rw [if_neg hdrop, if_neg hdrop]
      refine ((n.dropGotos_gives hhere hn).andThen
        ((branchDropGotos_gives outer haround _ rest hrest' htail).map (_ :: ·))).congr ?_
      rw [forall_mem_append]

end

/-- What dropping gotos gives, for every tree whose constructs have recorded where they are. -/
theorem dropNeedlessGotos_gives {tree : List Node} (h : branchInPlace 0 tree) :
    (dropNeedlessGotos tree).Gives (∀ s ∈ sites tree, s.Answered) (branchTrimmed [] tree) := by
  have haround : followingAddr [] = startsAt [] := rfl
  have hbranch := branchDropGotos_gives [] haround [] tree h fun _ => rfl
  refine (gives_of_checked (s := ⟨[], tree⟩) haround (fun e he => by cases he) hbranch).congr ?_
  rw [sites, forall_mem_cons]

end Decompiler
