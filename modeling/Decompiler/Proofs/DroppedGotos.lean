import Decompiler.Proofs.TreeFlow
/-!
# Where a dropped goto led

Control that falls off a branch comes to what stands behind the construct around it, and at the end
of a loop to the start of the loop (`fallsTo`). Comments aside, that is the next node in the order
of reading, as long as no loop is left (`nextNode`). The pass that drops gotos looks further: it
passes over conditional gotos, further conditions and conditional groups as well, and it climbs out
of loops.

So a dropped goto led to where control falls only if the node that was found is the next one in the
order of reading. If all dropped gotos led to where the next node starts, the code goes on as before
(`branchFlow_trimmed`).
-/

namespace Decompiler

variable {a target : Int} {n : Node} {after : Option Int}

/-! ## Falling off a branch -/

def Node.isComment : Node → Bool
  | .comment _ => true
  | _ => false

/-- The node that comes next in the order of reading for control that falls off a branch, if that
does not take it back to the start of a loop. -/
def nextNode : List Around → Option Node
  | [] => none
  | .fork rest :: outer =>
    match rest.find? (fun n => !n.isComment) with
    | some n => some n
    | none => nextNode outer
  | .loop _ _ :: _ => none

/-- The next node in the order of reading starts at an address. -/
def Site.LeadsOn (s : Site) (target : Int) : Prop :=
  target ≠ noAddr ∧ ∃ n, nextNode s.around = some n ∧ n.firstAddr = .ok target

theorem branchFirstAddr_eq {nodes : List Node} (h : branchFirstAddr nodes = .ok a) :
    a = noAddr := by
  cases nodes with
  | nil => exact (Except.ok.inj h).symm
  | cons n rest =>
    obtain ⟨b, -, hb⟩ := Except.bind_eq_ok.mp h
    exact (Except.ok.inj hb).symm

theorem Node.firstAddr_loop {endless : Bool} {place : Int} {body : List Node}
    (h : (Node.loop endless place body).firstAddr = .ok a) : a = noAddr := by
  cases body with
  | nil => cases h
  | cons m rest =>
    cases m with
    | block items =>
      cases items with
      | nil => exact (Except.ok.inj h).symm
      | cons item items =>
        cases item with
        | insn i => exact (Except.ok.inj h).symm
        | gap | pseudo => cases h
    | goto | comment | ifGoto | andIf | ifCond | ifElse | loop => cases h

/-- A node that has an address is where control gets that comes to it. -/
theorem Node.start_of_firstAddr (h : n.firstAddr = .ok a) (hne : a ≠ noAddr)
    (after : Option Int) : n.start after = some a := by
  cases n with
  | block items =>
    cases items with
    | nil => cases h
    | cons item rest =>
      cases item with
      | insn i => exact congrArg some (Except.ok.inj h)
      | gap | pseudo => cases h
  | goto | andIf | ifElse => exact congrArg some (Except.ok.inj h)
  | comment | ifGoto => exact absurd (Except.ok.inj h).symm hne
  | ifCond => exact absurd (branchFirstAddr_eq h) hne
  | loop => exact absurd (Node.firstAddr_loop h) hne

theorem branchStart_of_find? : ∀ {nodes : List Node},
    nodes.find? (fun n => !n.isComment) = some n →
      ∃ behind, branchStart after nodes = n.start behind := by
  intro nodes
  induction nodes with
  | nil => intro h; cases h
  | cons m rest ih =>
    intro h
    cases m with
    | comment => exact ih h
    | block | goto | ifGoto | andIf | ifCond | ifElse | loop =>
      obtain rfl := Option.some.inj h
      exact ⟨_, rfl⟩

theorem branchStart_of_comments : ∀ {nodes : List Node},
    nodes.find? (fun n => !n.isComment) = none → branchStart after nodes = after := by
  intro nodes
  induction nodes with
  | nil => intro _; rfl
  | cons m rest ih =>
    intro h
    cases m with
    | comment => exact ih h
    | block | goto | ifGoto | andIf | ifCond | ifElse | loop => cases h

/-- Control that falls off a branch comes to the next node in the order of reading. -/
theorem fallsTo_of_nextNode : ∀ {around : List Around}, nextNode around = some n →
    ∃ behind, fallsTo around = n.start behind := by
  intro around
  induction around with
  | nil => intro h; cases h
  | cons construct outer ih =>
    intro h
    cases construct with
    | loop => cases h
    | fork rest =>
      rw [nextNode] at h
      cases hfind : rest.find? (fun n => !n.isComment) with
      | some m =>
        rw [hfind] at h
        obtain rfl := Option.some.inj h
        exact branchStart_of_find? hfind
      | none =>
        rw [hfind] at h
        rw [fallsTo, branchStart_of_comments hfind]
        exact ih h

theorem Site.LeadsOn.falls {s : Site} (h : s.LeadsOn target) :
    fallsTo s.around = some target ∧ s.isBody = false := by
  obtain ⟨hne, n, hnext, hfirst⟩ := h
  obtain ⟨behind, hfalls⟩ := fallsTo_of_nextNode hnext
  refine ⟨by rw [hfalls, n.start_of_firstAddr hfirst hne], ?_⟩
  -- For control that goes back to the start of a loop there is no next node.
  unfold Site.isBody
  split
  · rename_i haround
    rw [haround] at hnext
    cases hnext
  · rfl

/-- If the node that is found behind a branch is the next one in the order of reading, a goto at the
end of the branch is dropped exactly if it leads there. -/
theorem Site.drops_iff_leadsOn {s : Site} (hlast : s.nodes.getLast? = some (.goto target false))
    (hne : target ≠ noAddr) (hnext : nextNode s.around = following s.rests) :
    s.Drops target ↔ s.LeadsOn target := by
  unfold Site.Drops Site.LeadsOn startsAt
  rw [and_iff_right hlast, and_iff_right hne, hnext]
  cases following s.rests with
  | none =>
    refine iff_of_false (fun h => hne (Except.ok.inj h).symm) ?_
    rintro ⟨n, hn, -⟩
    cases hn
  | some n =>
    constructor
    · intro h
      exact ⟨n, rfl, h⟩
    · rintro ⟨m, hm, h⟩
      rwa [Option.some.inj hm]

/-- Dropping gotos, for every tree whose constructs have recorded where they are: it goes through
exactly if what follows can be asked at each branch that ends in a goto, and drops the gotos that
lead to what is found there. If that is the next node in the order of reading, the gotos dropped are
those that lead to where control falls; if all dropped gotos are such, the code goes on as
before. -/
theorem dropped_gotos_lead_on {tree : List Node} (h : branchInPlace 0 tree) :
    ((dropNeedlessGotos tree).fault = none ↔ ∀ s ∈ sites tree, s.Answered) ∧
    ((dropNeedlessGotos tree).fault = none →
      (dropNeedlessGotos tree).value = branchTrimmed [] tree ∧ ((∀ s ∈ sites tree, s.Right) →
        ∀ g, branchFlow g none (dropNeedlessGotos tree).value = branchFlow g none tree)) ∧
    ∀ s ∈ sites tree, ∀ target,
      (s.LeadsOn target → fallsTo s.around = some target ∧ s.isBody = false) ∧
      (s.nodes.getLast? = some (.goto target false) → target ≠ noAddr →
        nextNode s.around = following s.rests → (s.Drops target ↔ s.LeadsOn target)) := by
  obtain ⟨hfault, hvalue⟩ := dropNeedlessGotos_gives h
  refine ⟨hfault, fun hnone => ⟨hvalue (hfault.mp hnone), fun hright g => ?_⟩, fun s _ target => ?_⟩
  · rw [sites, List.forall_mem_cons] at hright
    rw [hvalue (hfault.mp hnone)]
    exact branchFlow_trimmed [] tree hright.2 hright.1
  · exact ⟨Site.LeadsOn.falls, Site.drops_iff_leadsOn⟩

/-- A branch in two inside another, with comments behind both; all ways end alike and meet at 5. -/
def twoForks (ends : List Node) : List Node :=
  [.ifElse ((OneByte.fork 4).insn 0) 1 0
    [.ifElse ((OneByte.fork 3).insn 1) 2 0 (.block [.insn (OneByte.run.insn 2)] :: ends)
      (.block [.insn (OneByte.run.insn 3)] :: ends) none none, .comment "inner"]
    (.block [.insn (OneByte.run.insn 4)] :: ends) none none, .comment "outer",
      .block [.insn (OneByte.ret.insn 5)]]

/-- All three gotos to where the ways meet are dropped, and the code goes on as before. -/
theorem dropped_gotos_lead_on_twoForks : branchInPlace 0 (twoForks [.goto 5 false]) ∧
    (dropNeedlessGotos (twoForks [.goto 5 false])).fault = none ∧
    (dropNeedlessGotos (twoForks [.goto 5 false])).value = twoForks [] ∧
    ∀ g, branchFlow g none (twoForks []) = branchFlow g none (twoForks [.goto 5 false]) := by
  have hplace : branchInPlace 0 (twoForks [.goto 5 false]) := by
    simp [twoForks, branchInPlace, Node.InPlace]
  -- Where a branch ends in a goto, the block at 5 is what is found behind it, and it is next.
  have hsites : ∀ s ∈ sites (twoForks [.goto 5 false]),
      (∀ target, s.nodes.getLast? ≠ some (.goto target false)) ∨
      (s.nodes.getLast? = some (.goto 5 false) ∧
        nextNode s.around = some (.block [.insn (OneByte.ret.insn 5)]) ∧
        following s.rests = some (.block [.insn (OneByte.ret.insn 5)])) := by
    simp [sites, sitesIn, Node.sites, twoForks, nextNode, following, Site.rests, Around.rest,
      Node.isComment, Node.isPassedOver]
  obtain ⟨hfault, hvalue, hleads⟩ := dropped_gotos_lead_on hplace
  have hnone := hfault.mpr fun s hs target n hlast hn => by
    rcases hsites s hs with hnot | ⟨-, -, hfollow⟩
    · exact absurd hlast (hnot target)
    · rw [hfollow] at hn
      rw [← Option.some.inj hn]
      rfl
  obtain ⟨hvalue, hflow⟩ := hvalue hnone
  have htrimmed : branchTrimmed [] (twoForks [.goto 5 false]) = twoForks [] := rfl
  have hright : ∀ s ∈ sites (twoForks [.goto 5 false]), s.Right := by
    intro s hs target hdrops
    rcases hsites s hs with hnot | ⟨hlast, hnext, hfollow⟩
    · exact absurd hdrops.1 (hnot target)
    · obtain rfl : 5 = target := by simpa [hlast] using hdrops.1
      exact (hleads s hs 5).1 (((hleads s hs 5).2 hlast (by decide) (hnext.trans hfollow.symm)).mp
        hdrops)
  rw [hvalue, htrimmed] at hflow
  exact ⟨hplace, hnone, hvalue.trans htrimmed, hflow hright⟩

/-- A loop whose body ends as given, and the code at 1 behind it. -/
def loopBefore (ends : List Node) : List Node :=
  [.loop true 0 (.block [.insn (OneByte.run.insn 0)] :: ends), .block [.insn (OneByte.run.insn 1)]]

/-- A goto out of a loop is dropped if it leads to what is behind the loop. The block in front of it
then goes back to the start of the loop. -/
theorem goto_out_of_loop_dropped : branchInPlace 0 (loopBefore [.goto 1 false]) ∧
    dropNeedlessGotos (loopBefore [.goto 1 false]) = .done (loopBefore []) ∧
    ∀ g : Graph, g.succs.contains 0 = true →
      branchFlow g none (loopBefore [.goto 1 false]) = [(0, [1]), (1, [])] ∧
      branchFlow g none (loopBefore []) = [(0, [0]), (1, [])] := by
  refine ⟨by simp [loopBefore, branchInPlace, Node.InPlace], rfl, fun g hg => ?_⟩
  have hrun : ∀ after, g.exits (OneByte.run.insn 0) [.insn (OneByte.run.insn 0)] after =
      after.toList :=
    fun after => if_pos hg
  have hlast : g.exits (OneByte.run.insn 1) [.insn (OneByte.run.insn 1)] none = [] := ite_self _
  have hflow : ∀ after,
      [((0 : Int), g.exits (OneByte.run.insn 0) [.insn (OneByte.run.insn 0)] after),
      (1, g.exits (OneByte.run.insn 1) [.insn (OneByte.run.insn 1)] none)] =
      [(0, after.toList), (1, [])] := by
    intro after
    rw [hrun, hlast]
  exact ⟨hflow (some 1), hflow (some 0)⟩

end Decompiler
