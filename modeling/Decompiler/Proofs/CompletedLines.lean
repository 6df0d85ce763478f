import Decompiler.Proofs.EnteredLines
import Decompiler.Proofs.SectionBytes
/-!
# What completion puts into the line

Of several candidates a shortest one is compared with the others, place by place. No candidate ends
before a place that is looked at, and what is found is the longest text that all of them begin with
(`Shell.commonStart_longest`). This text, or a single candidate, is put in at the cursor, and the
rest of the line stays as it is (`Shell.completion_puts_common_start`).
-/

namespace Decompiler

open List

namespace Shell

open Act Editor

/-! ## The longest common start -/

/-- A text is the longest one that all of some lines begin with. -/
structure LongestStart (lines : List Line) (start : Line) : Prop where
  shared : ∀ w ∈ lines, start <+: w
  longest : ∀ s, (∀ w ∈ lines, s <+: w) → s <+: start

theorem LongestStart.perm {lines lines' : List Line} {start : Line} (h : LongestStart lines start)
    (hperm : lines.Perm lines') : LongestStart lines' start where
  shared w hw := h.shared w (hperm.mem_iff.mpr hw)
  longest s hs := h.longest s fun w hw => hs w (hperm.mem_iff.mp hw)

theorem LongestStart.unique {lines : List Line} {start start' : Line} (h : LongestStart lines start)
    (h' : LongestStart lines start') : start = start' :=
  (h'.longest start h.shared).eq_of_length_le (h.longest start' h'.shared).length_le

/-- A beginning of a line goes on with the character that comes next. -/
theorem concat_prefix_iff {start w : Line} (h : start <+: w) (c : Char) :
    start ++ [c] <+: w ↔ w[start.length]? = some c := by
  obtain ⟨rest, rfl⟩ := h
  rw [prefix_append_right_inj, List.getElem?_append_right le_rfl, Nat.sub_self,
    ← List.head?_eq_getElem?]
  cases rest <;> simp [eq_comm]

section Candidates

variable {c : Char} {place : Nat} {others : List Line}

/-- Where no candidate ends before a place, they can be compared there. -/
theorem agreeAt_eq (hlong : ∀ w ∈ others, place < w.length) :
    agreeAt c place others = .ok (decide (∀ w ∈ others, w[place]? = some c)) := by
  induction others with
  | nil => rfl
  | cons w more ih =>
    obtain ⟨hlt, hmore⟩ := forall_mem_cons.mp hlong
    simp only [agreeAt, List.getElem?_eq_getElem hlt, forall_mem_cons, Option.some.injEq]
    by_cases hc : w[place] = c
    · rw [if_pos hc, ih hmore]
      simp [hc]
    · simp [hc]

/-- Comparing goes on as long as all candidates agree. The induction is over the rest of the
candidate that the others are compared with; what is in front of it has been found in all of
them. -/
theorem agreeFrom_longest : ∀ (rest start : Line), (∀ w ∈ others, start <+: w) →
    (∀ w ∈ others, start.length + rest.length ≤ w.length) →
    ∃ common, agreeFrom others start.length rest = .ok common ∧
      LongestStart ((start ++ rest) :: others) (start ++ common) := by
  intro rest
  induction rest with
  | nil =>
    intro start hstart _
    refine ⟨[], rfl, ?_, fun s hs => hs _ (.head _)⟩
    simpa using hstart
  | cons c rest ih =>
    intro start hstart hlong
    have hlong' : ∀ w ∈ others, (start ++ [c]).length + rest.length ≤ w.length := by
      intro w hw
      have hle := hlong w hw
      simp only [length_append, length_cons, length_nil] at hle ⊢
      omega
    have hlt : ∀ w ∈ others, start.length < w.length := by
      intro w hw
      have hle := hlong w hw
      rw [length_cons] at hle
      omega
    simp only [agreeFrom, agreeAt_eq hlt]
    by_cases hall : ∀ w ∈ others, w[start.length]? = some c
    · -- The character belongs to all of them, and the comparison goes on behind it.
      obtain ⟨common, hcommon, hlongest⟩ :=
        ih (start ++ [c]) (fun w hw => (concat_prefix_iff (hstart w hw) c).mpr (hall w hw)) hlong'
      rw [length_append, length_singleton] at hcommon
      refine ⟨c :: common, ?_, by simpa using hlongest⟩
      rw [decide_eq_true hall, hcommon]
      rfl
    · refine ⟨[], by rw [decide_eq_false hall]; rfl, by simpa using hstart, fun s hs => ?_⟩
      -- A text that goes on here has this character, and then all of the others have it too.
      have hbeyond : ¬ start ++ [c] <+: s := by
        intro hlonger
        refine hall fun w hw => (concat_prefix_iff (hstart w hw) c).mp ?_
        exact hlonger.trans (hs w (.tail _ hw))
      have hnext : start ++ [c] <+: start ++ c :: rest := ⟨rest, by simp⟩
      rw [append_nil]
      rcases prefix_or_prefix_of_prefix (hs _ (.head _)) hnext with hshort | hlonger
      · rcases prefix_concat_iff.mp hshort with rfl | hshort
        · exact absurd prefix_rfl hbeyond
        · exact hshort
      · exact absurd hlonger hbeyond

end Candidates

theorem pickShortest_perm (first : Line) (more : List Line) :
    ((pickShortest first more).1 :: (pickShortest first more).2).Perm (first :: more) := by
  induction more generalizing first with
  | nil => exact Perm.refl _
  | cons second more ih =>
    simp only [pickShortest]
    split
    · exact Perm.refl _
    · exact (Perm.swap _ _ _).trans ((ih second).cons first)

theorem length_pickShortest_le (first : Line) (more : List Line) :
    ∀ w ∈ first :: more, (pickShortest first more).1.length ≤ w.length := by
  induction more generalizing first with
  | nil => simp [pickShortest]
  | cons second more ih =>
    have hrest := ih second
    rw [forall_mem_cons]
    simp only [pickShortest]
    split
    · rename_i hlt
      exact ⟨le_rfl, fun w hw => hlt.le.trans (hrest w hw)⟩
    · rename_i hge
      exact ⟨not_lt.mp hge, hrest⟩

/-- Whatever the lengths of the candidates are, the text that all of them begin with is found. -/
theorem commonStart_longest (first : Line) (more : List Line) :
    ∃ common, commonStart first more = .ok common ∧ LongestStart (first :: more) common := by
  have hperm := pickShortest_perm first more
  obtain ⟨common, hcommon, hlongest⟩ :=
    agreeFrom_longest (pickShortest first more).1 [] (fun w _ => nil_prefix) fun w hw => by
      rw [length_nil, Nat.zero_add]
      exact length_pickShortest_le first more w (hperm.mem_iff.mp (.tail _ hw))
  exact ⟨common, hcommon, hlongest.perm hperm⟩

/-! ## Completion of a line -/

section Completion

variable {σ σ' : Session} {line : Line} {c : Completion} {lines : List Line}

/-- An answer to a line whose last word begins so and has these candidates: of several, what they
have in common is given. -/
structure Answered (start : Line) (lines : List Line) (c : Completion) : Prop where
  candidates : c.candidates = some lines
  token : c.token = some start
  common : 2 ≤ lines.length → ∃ text, c.common = some text ∧ LongestStart lines text

/-- Once candidates have been found, the completion returns them, and nothing is changed or
written. -/
theorem complete_of_found {words found : List String}
    (hwords : Text.words? (String.ofList (line ++ ['_'])) = some words)
    (hfound : candidates σ words (unfinished words) = .ok (some found)) :
    ∃ c, complete line σ = .ok c σ ∧
      Answered (unfinished words).toList (found.map String.toList) c := by
  unfold complete
  simp only [hwords]
  rw [get_bind_apply, hfound, bind_of_ok (ask_eq_ok.mpr ⟨rfl, rfl⟩)]
  dsimp only
  rcases found.map String.toList with _ | ⟨first, _ | ⟨second, more⟩⟩
  · exact ⟨_, rfl, rfl, rfl, by simp⟩
  · exact ⟨_, rfl, rfl, rfl, by simp⟩
  · obtain ⟨text, htext, hlongest⟩ := commonStart_longest first (second :: more)
    dsimp only
    rw [htext, bind_of_ok (ask_eq_ok.mpr ⟨rfl, rfl⟩)]
    exact ⟨_, rfl, rfl, rfl, fun _ => ⟨text, rfl, hlongest⟩⟩

/-- A completion that returns candidates has found them. -/
theorem found_of_complete (h : complete line σ = .ok c σ') (hlines : c.candidates = some lines) :
    ∃ words found, Text.words? (String.ofList (line ++ ['_'])) = some words ∧
      candidates σ words (unfinished words) = .ok (some found) ∧ lines = found.map String.toList ∧
      Answered (unfinished words).toList lines c := by
  have hrun := h
  unfold complete at hrun
  cases hwords : Text.words? (String.ofList (line ++ ['_'])) with
  | none =>
    simp only [hwords] at hrun
    cases hrun
  | some words =>
    simp only [hwords] at hrun
    rw [get_bind_apply] at hrun
    obtain ⟨found?, σ₁, hask, hrun⟩ := bind_eq_ok.mp hrun
    obtain ⟨hfound, rfl⟩ := ask_eq_ok.mp hask
    cases found? with
    | none =>
      obtain ⟨_, σ₂, -, hrun⟩ := bind_eq_ok.mp hrun
      obtain ⟨rfl, -⟩ := pure_eq_ok.mp hrun
      cases hlines
    | some found =>
      obtain ⟨c', hc', hanswered⟩ := complete_of_found hwords hfound
      rw [h] at hc'
      cases hc'
      obtain rfl : found.map String.toList = lines :=
        Option.some.inj (hanswered.candidates.symm.trans hlines)
      exact ⟨words, found, rfl, hfound, rfl, hanswered⟩

end Completion

/-! ## The key -/

section Key

variable {σ σ' : Session} {c : Completion} {lines : List Line}

/-- What is put in for candidates: the only one, or what all of several begin with. -/
def PutIn (lines : List Line) (text : Line) : Prop :=
  lines = [text] ∨ 2 ≤ lines.length ∧ LongestStart lines text

/-- With an answer that has candidates the editor goes on, and the text that is put in stands
between the two parts of the line. -/
theorem Answered.afterCompletion {start : Line} (h : Answered start lines c) (hne : lines ≠ [])
    (e : Editor) (row : Int) :
    ∃ text after out, PutIn lines text ∧ (2 ≤ lines.length → c.common = some text) ∧
      e.afterCompletion c row = .plain after out ∧ after.line = e.before ++ text ++ e.after := by
  obtain ⟨candidates, token, common⟩ := c
  obtain ⟨rfl, rfl, hcommon⟩ := h
  rcases lines with _ | ⟨only, _ | ⟨second, more⟩⟩
  · exact absurd rfl hne
  · exact ⟨only, _, _, .inl rfl, by simp, rfl, rfl⟩
  · have htwo : 2 ≤ (only :: second :: more).length := by simp
    obtain ⟨text, rfl, hlongest⟩ := hcommon htwo
    exact ⟨text, _, _, .inr ⟨htwo, hlongest⟩, fun _ => rfl, rfl, rfl⟩

end Key

end Shell

end Decompiler
