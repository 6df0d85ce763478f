import Decompiler.Proofs.EditorBounds
/-!
# Entered lines in the history

A line that is entered goes to the top of the history, unless it was taken from there: that is told
from the place in the history alone. Almost every key that changes the line gives up the place, and
almost every key that changes the place shows the line that stands there (`Editor.handle_cases`).
The two exceptions are a search for older lines that finds none, which moves the place and leaves
the line, and a completion, which changes the line and leaves the place. So an entered line is the
first of the history exactly if the last key that changed anything was not one of these, with the
place at the top (`Editor.entered_line_newest_iff`).
-/

namespace Decompiler

open List

namespace Editor

variable {key : Key} {i : String × Answers} {e e' : Editor}

/-! ## The line and its place -/

/-- Two editors show the same line, from the same place in the same history. -/
structure Alike (e e' : Editor) : Prop where
  line : e'.line = e.line
  place : e'.place = e.place
  history : e'.history = e.history

theorem Alike.refl (e : Editor) : e.Alike e := ⟨rfl, rfl, rfl⟩

theorem Alike.symm (h : e.Alike e') : e'.Alike e := ⟨h.line.symm, h.place.symm, h.history.symm⟩

theorem Alike.trans {e'' : Editor} (h : e.Alike e') (h' : e'.Alike e'') : e.Alike e'' :=
  ⟨h'.line.trans h.line, h'.place.trans h.place, h'.history.trans h.history⟩

/-- The line is the one that stands at the place in the history, if there is a place. -/
def InStep (e : Editor) : Prop := ∀ k, e.place = some k → e.history[k]? = some e.line

theorem inStep_of_none (h : e.place = none) : e.InStep := by
  intro k hk
  rw [h] at hk
  cases hk

theorem inStep_of_some {k : Nat} (hplace : e.place = some k) (hline : e.history[k]? = some e.line) :
    e.InStep := by
  intro j hj
  rw [hplace] at hj
  rwa [← Option.some.inj hj]

/-- The place is the top of the history, and another line is shown. -/
def OffTop (e : Editor) : Prop := e.place = some 0 ∧ e.history.head? ≠ some e.line

theorem InStep.not_offTop (h : e.InStep) : ¬ e.OffTop := by
  rintro ⟨hplace, hline⟩
  rw [List.head?_eq_getElem?] at hline
  exact hline (h 0 hplace)

theorem OffTop.alike (h : e.OffTop) (halike : e.Alike e') : e'.OffTop := by
  unfold OffTop
  rw [halike.line, halike.place, halike.history]
  exact h

/-- Going on to newer lines shows a line of the history or the line that was left, or there is
nothing newer. -/
theorem newerMatch_inStep (h : e.PlaceIn) : e.newerMatch.editor.InStep := by
  rcases newerMatch_cases h with ⟨-, out, heq⟩ | ⟨-, line, place, out, heq, -, hline⟩
  · rw [heq]
    exact inStep_of_none rfl
  · rw [heq]
    exact hline

/-! ## Completion -/

/-- What completing makes of the line. -/
def completedLine (e : Editor) (c : Completion) : Line :=
  match c.candidates, c.common, c.token with
  | some [only], _, _ => e.before ++ only ++ e.after
  | some (_ :: _ :: _), some common, some _ => e.before ++ common ++ e.after
  | _, _, _ => e.line

theorem afterCompletion_view (e : Editor) (c : Completion) (row : Int) :
    (e.afterCompletion c row).editor.line = e.completedLine c ∧
      (e.afterCompletion c row).editor.place = e.place ∧
      (e.afterCompletion c row).editor.history = e.history := by
  obtain ⟨candidates, token, common⟩ := c
  rcases candidates with _ | ⟨_ | ⟨only, _ | ⟨second, more⟩⟩⟩
  · exact ⟨rfl, rfl, rfl⟩
  · exact ⟨rfl, rfl, rfl⟩
  · exact ⟨rfl, rfl, rfl⟩
  · cases common with
    | none => exact ⟨rfl, rfl, rfl⟩
    | some common => cases token <;> exact ⟨rfl, rfl, rfl⟩

theorem handle_complete_view (e : Editor) (a : Answers) :
    (e.handle a .complete).editor.line = e.completedLine a.completion ∧
      (e.handle a .complete).editor.place = e.place ∧
      (e.handle a .complete).editor.history = e.history :=
  afterCompletion_view { e with raw := false } a.completion a.laterRow

/-! ## One key -/

theorem older_alike_or_inStep (e : Editor) : e.Alike e.older.editor ∨ e.older.editor.InStep := by
  unfold older
  dsimp only
  split
  · exact .inl (Alike.refl e)
  · rename_i line hline
    exact .inr (inStep_of_some rfl hline)

theorem newer_inStep (h : e.PlaceIn) : e.newer.editor.InStep := by
  unfold newer
  split
  · rename_i hplace
    exact inStep_of_none hplace
  · exact inStep_of_none rfl
  · rename_i k hplace
    have hk := h _ hplace
    refine inStep_of_some rfl ?_
    show e.history[k]? = some (e.history[k]?.getD [])
    rw [List.getElem?_eq_getElem (by omega : k < e.history.length)]
    rfl

theorem alike_moveLeft (e : Editor) : e.Alike e.moveLeft.1 := by
  unfold moveLeft
  split <;> exact ⟨rfl, rfl, rfl⟩

theorem deleteHere_alike_or_inStep (e : Editor) :
    e.Alike e.deleteHere.1 ∨ e.deleteHere.1.InStep := by
  unfold deleteHere
  split
  · exact .inl (Alike.refl e)
  · exact .inr (inStep_of_none rfl)

/-- Only three keys ask for something. -/
theorem request_press (e : Editor) (row : Int) (hkey : key ∉ [.enter, .complete, .interrupt]) :
    (e.press row key).request = .nothing := by
  cases key with
  | enter | complete | interrupt => simp at hkey
  | home | toEnd | wordRight | clear | unknown | left | delete | eraseBefore | eraseAfter | text =>
    rfl
  | right =>
    simp only [press, moveRight]
    split <;> rfl
  | wordLeft =>
    simp only [press, moveWordLeft]
    split
    · rfl
    · split <;> rfl
  | up =>
    simp only [press, older]
    split <;> rfl
  | down =>
    simp only [press, newer]
    split <;> rfl
  | pageUp =>
    obtain ⟨saved, out, ⟨j, line, -, -, heq⟩ | ⟨-, heq⟩⟩ := olderMatch_cases e <;>
      · rw [press, heq]
        rfl
  | pageDown =>
    simp only [press, newerMatch]
    split
    · rfl
    · rename_i k _
      obtain ⟨out, ⟨j, -, -, heq⟩ | ⟨-, heq⟩⟩ := searchNewer_eq e.before e k <;>
        · rw [heq]
          rfl
  | backspace =>
    simp only [press, deleteLeft]
    split <;> rfl
  | eraseWord =>
    simp only [press, deleteWord]
    split
    · rfl
    · split <;> rfl

theorem handle_of_silent (e : Editor) (a : Answers) (hkey : key ∉ [.enter, .complete, .interrupt]) :
    e.handle a key = e.press a.row key := by
  simp only [handle, request_press e a.row hkey]

/-- After a line was entered, no place in the history is shown. -/
theorem place_handle_enter (e : Editor) (a : Answers) :
    (e.handle a .enter).editor.place = none := by
  simp only [handle, press, enterLine]
  by_cases hline : e.line = []
  · simp only [if_pos hline]
    rfl
  · simp only [if_neg hline]
    rfl

/-- What a key does to the line and its place. It leaves both, or it shows the line that stands at
the new place, or none of the history. A search for older lines may go over all of them and leave
the line, and a completion changes the line alone. -/
theorem handle_cases (hplace : e.PlaceIn) (a : Answers) (key : Key) :
    e.Alike (e.handle a key).editor ∨ (e.handle a key).editor.InStep ∨
    (key = .pageUp ∧ e.olderLines ≠ [] ∧ (∀ line ∈ e.olderLines, ¬ e.before <+: line) ∧
      (e.handle a key).editor.line = e.line ∧
        (e.handle a key).editor.place = some (e.history.length - 1) ∧
      (e.handle a key).editor.history = e.history) ∨
    (key = .complete ∧ (e.handle a key).editor.line = e.completedLine a.completion ∧
      (e.handle a key).editor.place = e.place ∧ (e.handle a key).editor.history = e.history) := by
  by_cases hkey : key ∈ [.enter, .complete, .interrupt]
  · rcases (by simpa using hkey : key = .enter ∨ key = .complete ∨ key = .interrupt)
      with rfl | rfl | rfl
    · exact .inr (.inl (inStep_of_none (place_handle_enter e a)))
    · exact .inr (.inr (.inr ⟨rfl, handle_complete_view e a⟩))
    · exact .inl ⟨rfl, rfl, rfl⟩
  rw [handle_of_silent e a hkey]
  cases key with
  | enter | complete | interrupt => simp at hkey
  | home | toEnd | wordRight | clear | unknown => exact .inl ⟨rfl, rfl, rfl⟩
  | left => exact .inl (alike_moveLeft e)
  | right =>
    rw [press, moveRight]
    split <;> exact .inl ⟨rfl, rfl, rfl⟩
  | wordLeft =>
    rw [press, moveWordLeft]
    split
    · exact .inl (Alike.refl e)
    · split <;> exact .inl ⟨rfl, rfl, rfl⟩
  | eraseBefore | eraseAfter | text => exact .inr (.inl (inStep_of_none rfl))
  | up => exact (older_alike_or_inStep e).imp_right .inl
  | down => exact .inr (.inl (newer_inStep hplace))
  | pageUp =>
    rw [press]
    obtain ⟨saved, out, ⟨j, line, hline, -, heq⟩ | ⟨hnone, heq⟩⟩ := olderMatch_cases e
    · rw [heq]
      exact .inr (.inl (inStep_of_some rfl hline))
    · rw [heq]
      by_cases hlines : e.olderLines = []
      · rw [if_pos hlines]
        exact .inl ⟨rfl, rfl, rfl⟩
      · rw [if_neg hlines]
        exact .inr (.inr (.inl ⟨rfl, hlines, hnone, rfl, rfl, rfl⟩))
  | pageDown => exact .inr (.inl (newerMatch_inStep hplace))
  | backspace =>
    rw [press, deleteLeft]
    split
    · exact .inl (Alike.refl e)
    · exact .inr (.inl (inStep_of_none rfl))
  | delete => exact (deleteHere_alike_or_inStep e).imp_right .inl
  | eraseWord =>
    rw [press, deleteWord]
    split
    · exact .inl (Alike.refl e)
    · split
      · exact .inl (Alike.refl e)
      · exact .inr (.inl (inStep_of_none rfl))

/-! ## Where the two part -/

/-- An input leaves the place at the top of the history with another line. Either it looks for older
lines, in a history of one line that does not begin with the text in front of the cursor; or it
completes the line that was taken from the top. -/
def Slips (e : Editor) (i : String × Answers) : Prop :=
  (Key.ofInput i.1 = .ok .pageUp ∧ e.place = none ∧ ∃ only, e.history = [only] ∧
    ¬ e.before <+: only) ∨
  (Key.ofInput i.1 = .ok .complete ∧ e.place = some 0 ∧ e.completedLine i.2.completion ≠ e.line ∧
    e.history.head? ≠ some (e.completedLine i.2.completion))

theorem process_of_key (h : Key.ofInput i.1 = .ok key) : e.process i.2 i.1 = e.handle i.2 key := by
  simp only [process, h]

theorem Slips.offTop (h : e.Slips i) : (e.process i.2 i.1).editor.OffTop := by
  rcases h with ⟨hkey, hplace, only, hhistory, hnot⟩ | ⟨hkey, hplace, -, hother⟩
  · rw [process_of_key hkey, handle_of_silent e i.2 (by decide), press]
    have hlines : e.olderLines = [only] := by simp [olderLines, hplace, hhistory]
    obtain ⟨saved, out, ⟨j, line, hline, hstart, -⟩ | ⟨-, heq⟩⟩ := olderMatch_cases e
    · have hmem : line ∈ e.history := mem_of_getElem? hline
      rw [hhistory, mem_singleton] at hmem
      exact absurd (hmem ▸ hstart) hnot
    · rw [heq, if_neg (by simp [hlines]), hhistory]
      refine ⟨rfl, fun htop => ?_⟩
      -- The line begins with the text in front of the cursor, and the only line of the history does
      -- not.
      obtain rfl : only = e.line := Option.some.inj htop
      exact hnot <| take_prefix _ _
  · rw [process_of_key hkey]
    obtain ⟨hline, hplace', hhistory⟩ := e.handle_complete_view i.2
    refine ⟨hplace'.trans hplace, ?_⟩
    rw [hline, hhistory]
    exact hother

/-- If another line is shown from the top of the history, then it was so before, or the input has
just made it so. -/
theorem process_offTop (hplace : e.PlaceIn) (h : (e.process i.2 i.1).editor.OffTop) :
    e.Alike (e.process i.2 i.1).editor ∨ e.Slips i := by
  cases hkey : Key.ofInput i.1 with
  | error f =>
    refine .inl ?_
    simp only [process, hkey]
    exact Alike.refl e
  | ok key =>
    rw [process_of_key hkey] at h ⊢
    rcases handle_cases hplace i.2 key with halike | hin | ⟨rfl, hlines, hnone, -, hlast, -⟩ | ⟨rfl,
      hline, hsame, hhistory⟩
    · exact .inl halike
    · exact absurd h hin.not_offTop
    · -- The oldest line is the first one: there is one line, and no place was shown.
      have hlength : e.history.length - 1 = 0 := Option.some.inj (hlast.symm.trans h.1)
      have hpos := length_pos_iff.mpr hlines
      rw [olderLines, length_drop] at hpos
      obtain ⟨only, honly⟩ := length_eq_one_iff.mp (by omega : e.history.length = 1)
      have hno : e.place = none := by
        cases hp : e.place with
        | none => rfl
        | some k =>
          rw [hp, Option.elim_some] at hpos
          omega
      refine .inr (.inl ⟨hkey, hno, only, honly, hnone only ?_⟩)
      simp [olderLines, hno, honly]
    · by_cases hchanged : e.completedLine i.2.completion = e.line
      · exact .inl ⟨hline.trans hchanged, hsame, hhistory⟩
      · have htop := h.2
        rw [hhistory, hline] at htop
        exact .inr (.inr ⟨hkey, hsame.symm.trans h.1, hchanged, htop⟩)

/-! ## Sequences of keys -/

/-- Another line is shown from the top of the history exactly if some input made it so and nothing
has changed since. -/
theorem edited_offTop_iff {e₀ : Editor} (hplace : e₀.place = none)
    (inputs : List (String × Answers)) :
    (e₀.edited inputs).OffTop ↔ ∃ before i after, inputs = before ++ i :: after ∧
      (e₀.edited before).Slips i ∧
      ∀ mid, mid <+: after → (e₀.edited (before ++ i :: mid)).Alike (e₀.edited inputs) := by
  constructor
  · induction inputs using reverseRecOn with
    | nil => exact fun h => absurd h (inStep_of_none hplace).not_offTop
    | append_singleton inputs i ih =>
      intro h
      have hin := placeIn_edited (placeIn_of_none hplace) inputs
      rw [edited_concat] at h
      rcases process_offTop hin h with halike | hslips
      · -- The last input has left everything, so the one that made it so is an earlier one.
        obtain ⟨before, j, after, hsplit, hslips, hsince⟩ := ih (h.alike halike.symm)
        refine ⟨before, j, after ++ [i], by simp [hsplit], hslips, fun mid hmid => ?_⟩
        rcases prefix_concat_iff.mp hmid with rfl | hmid
        · have hall : before ++ j :: (after ++ [i]) = inputs ++ [i] := by simp [hsplit]
          rw [hall]
          exact Alike.refl _
        · rw [edited_concat]
          exact (hsince mid hmid).trans halike
      · refine ⟨inputs, i, [], rfl, hslips, fun mid hmid => ?_⟩
        rw [prefix_nil.mp hmid]
        exact Alike.refl _
  · rintro ⟨before, i, after, -, hslips, hsince⟩
    have hoff := hslips.offTop
    rw [← edited_concat] at hoff
    exact hoff.alike (hsince [] nil_prefix)

/-! ## Entering the line -/

theorem history_enter (hline : e.line ≠ []) (a : Answers) :
    (e.process a "\r").editor.history = if e.place = some 0 then e.history else e.line ::
      e.history := by
  have hkey : Key.ofInput "\r" = .ok .enter := by decide
  rw [process_of_key (i := ("\r", a)) hkey]
  simp only [handle, press, enterLine, if_neg hline]
  rfl

/-- A history has come from another one by a line: the line is the first one, and the rest are the
lines from before, but for the first one if that is the same line. -/
def NewestOf (line : Line) (old new : List Line) : Prop :=
  new.head? = some line ∧ (new.tail = old ∨ old.head? = some line ∧ new.tail = old.tail)

theorem newestOf_enter_iff (hline : e.line ≠ []) (a : Answers) :
    NewestOf e.line e.history (e.process a "\r").editor.history ↔ ¬ e.OffTop := by
  rw [history_enter hline]
  by_cases hplace : e.place = some 0
  · rw [if_pos hplace]
    constructor
    · rintro ⟨hhead, -⟩ ⟨-, hoff⟩
      exact hoff hhead
    · intro hon
      have hhead : e.history.head? = some e.line := by
        by_contra hoff
        exact hon ⟨hplace, hoff⟩
      exact ⟨hhead, .inr ⟨hhead, rfl⟩⟩
  · rw [if_neg hplace]
    exact iff_of_true ⟨rfl, .inl rfl⟩ fun hoff => hplace hoff.1

/-- From an editor in which nothing has been entered, after any sequence of inputs and whatever is
answered: a line that is not empty and is entered becomes the first of the history, with the lines
from before behind it, exactly if it is not so that some earlier input left the place at the top of
the history with another line and nothing has changed since. -/
theorem entered_line_newest_iff (row : Int) (history : List Line) (raw : Bool)
    (inputs : List (String × Answers)) (a : Answers)
    (hline : ((opened row history raw).edited inputs).line ≠ []) :
    NewestOf ((opened row history raw).edited inputs).line
      ((opened row history raw).edited inputs).history
        (((opened row history raw).edited inputs).process a "\r").editor.history ↔
      ¬ ∃ before i after, inputs = before ++ i :: after ∧
        ((opened row history raw).edited before).Slips i ∧ ∀ mid, mid <+: after →
          ((opened row history raw).edited (before ++ i :: mid)).Alike
            ((opened row history raw).edited inputs) := by
  rw [newestOf_enter_iff hline, edited_offTop_iff rfl]

/-- A line is entered and shown again. -/
def shownAgain : List (String × Answers) :=
  [("ab", nothingFound), ("\r", nothingFound), ("\x1b[A", nothingFound)]

/-- Entered once more, the line is in the history once. -/
theorem entered_line_newest_iff_again :
    ((opened 1 [] false).edited shownAgain).line = "ab".toList ∧
      (((opened 1 [] false).edited shownAgain).process nothingFound "\r").editor.history =
        ["ab".toList] ∧
      ¬ ∃ before i after, shownAgain = before ++ i :: after ∧
        ((opened 1 [] false).edited before).Slips i ∧ ∀ mid, mid <+: after →
          ((opened 1 [] false).edited (before ++ i :: mid)).Alike
            ((opened 1 [] false).edited shownAgain) := by
  have hline : ((opened 1 [] false).edited shownAgain).line = "ab".toList := by decide +kernel
  have hhistory : (((opened 1 [] false).edited shownAgain).process nothingFound
      "\r").editor.history = ["ab".toList] := by
    decide +kernel
  refine ⟨hline, hhistory,
    (entered_line_newest_iff 1 [] false shownAgain nothingFound (by simp [hline])).mp ?_⟩
  rw [hline, hhistory]
  exact ⟨rfl, .inr ⟨by decide +kernel, by decide +kernel⟩⟩

/-- A line is shown again and completed. -/
def completedAgain : List (String × Answers) :=
  shownAgain ++ [("\t", ⟨1, 1, ⟨some ["c".toList], some "ab".toList, none⟩⟩)]

/-- A line is written, and lines that begin like it are looked for in a history that has none. -/
def searchedInVain : List (String × Answers) :=
  [("ab", nothingFound), ("\r", nothingFound), ("x", nothingFound), ("\x1b[5~", nothingFound)]

/-- Both lines are run when they are entered, and neither is in the history. -/
theorem entered_line_missing :
    ((start 1).edited completedAgain).line = "abc".toList ∧
      (((start 1).edited completedAgain).process nothingFound "\r").editor.history = ["ab".toList] ∧
      ((start 1).edited searchedInVain).line = "x".toList ∧
      (((start 1).edited searchedInVain).process nothingFound "\r").editor.history =
        ["ab".toList] := by
  decide +kernel

end Editor

end Decompiler
