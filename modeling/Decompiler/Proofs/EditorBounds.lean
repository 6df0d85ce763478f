import Decompiler.Proofs.Outcome
import Decompiler.Shell.Run
/-!
# The cursor in its line

The line, the cursor and the place in the history are changed by about twenty keys, one by one. The
place always lies in the history. The cursor stays in the line with all keys but one: the key that
goes on to newer lines may come back to the line that was left, which need not begin with the text
in front of the cursor, and leaves the cursor where it is. So the cursor is in its line after every
key exactly if that never happens with a cursor beyond the end of the line that was left
(`Editor.cursor_in_line_iff`); as long as it does not, no key looks at a character that is not
there.
-/

namespace Decompiler

open List

namespace Editor

/-! ## Keys and their answers -/

/-- What a key is told while it is handled: the row of the terminal before and after what it asks
for, and candidates to complete the line. -/
structure Answers where
  row : Int
  laterRow : Int
  completion : Completion
  deriving DecidableEq, Repr

/-- The whole effect of a key. A line that is entered is run, and that returns. -/
def handle (e : Editor) (a : Answers) (key : Key) : Effect :=
  let effect := e.press a.row key
  match effect.request with
  | .nothing => effect
  | .run _ => effect.editor.afterRun a.laterRow
  | .complete _ => effect.editor.afterCompletion a.completion a.laterRow
  | .interrupt => effect.editor.afterInterrupt

/-- The whole effect of what the terminal sends. -/
def process (e : Editor) (a : Answers) (input : String) : Effect :=
  match Key.ofInput input with
  | .ok key => e.handle a key
  | .error f => .fails e [] f

/-- The editor after a sequence of inputs, each with its answers. -/
def edited (e : Editor) (inputs : List (String × Answers)) : Editor :=
  inputs.foldl (fun e i => (e.process i.2 i.1).editor) e

theorem edited_concat (e : Editor) (inputs : List (String × Answers)) (i : String × Answers) :
    e.edited (inputs ++ [i]) = ((e.edited inputs).process i.2 i.1).editor := by
  rw [edited, foldl_append]
  rfl

/-! ## Bounds -/

variable {e : Editor}

/-- The cursor is in the line, or right behind it. -/
def CursorIn (e : Editor) : Prop := e.cursor ≤ e.line.length

/-- The place in the history that is shown is one. -/
def PlaceIn (e : Editor) : Prop := ∀ k, e.place = some k → k < e.history.length

theorem placeIn_of_none (h : e.place = none) : e.PlaceIn := by
  intro k hk
  rw [h] at hk
  cases hk

theorem CursorIn.length_before (h : e.CursorIn) : e.before.length = e.cursor :=
  length_take_of_le h

theorem length_after (e : Editor) : e.after.length = e.line.length - e.cursor := length_drop

/-! ### Words -/

theorem wordStart_skip_le (written : Line) (p : Char → Bool) :
    ∀ j, wordStart.skip written p j ≤ j := by
  intro j
  induction j with
  | zero => exact Nat.le_refl 0
  | succ j ih =>
    unfold wordStart.skip
    split
    · exact Nat.le_succ_of_le ih
    · exact Nat.le_refl _

/-- A word starts in front of the place from which it is looked for. -/
theorem wordStart_le (written : Line) (place : Nat) : wordStart written place ≤ place := by
  have hword := wordStart_skip_le written (· ≠ ' ') (wordStart.skip written (· = ' ') (place - 1))
  have hblanks := wordStart_skip_le written (· = ' ') (place - 1)
  unfold wordStart
  dsimp only
  split
  · exact Nat.zero_le place
  · omega

/-- The search for the word in front of a cursor that is in the line never looks beyond the line. -/
theorem CursorIn.previousWord (h : e.CursorIn) :
    e.previousWord = .ok (wordStart e.line e.cursor) := by
  unfold CursorIn at h
  have hnot : ¬ ((decide (1 < e.cursor) && decide (e.line.length < e.cursor)) = true) := by
    simp only [Bool.and_eq_true, decide_eq_true_eq]
    omega
  rw [Editor.previousWord, if_neg hnot]

theorem CursorIn.nextWord (h : e.CursorIn) : e.nextWord ≤ e.line.length := by
  have hblanks : (e.after.takeWhile (· = ' ')).length + (e.after.dropWhile (· = ' ')).length =
      e.after.length := by
    rw [← length_append, takeWhile_append_dropWhile]
  have hword : ((e.after.dropWhile (· = ' ')).takeWhile (· ≠ ' ')).length ≤
      (e.after.dropWhile (· = ' ')).length :=
    (List.takeWhile_prefix _).length_le
  have hafter := e.length_after
  unfold CursorIn at h
  unfold Editor.nextWord
  dsimp only
  omega

/-! ### Searches in the history -/

/-- A search for an older line ends at a line that begins as required. If there is none, it ends at
the oldest line, and leaves the line that is shown. -/
theorem searchOlder_cases (start : Line) :
    ∀ (lines : List Line) (k : Nat) (e : Editor), e.history.drop k = lines →
    (∃ j line out, e.history[j]? = some line ∧ start <+: line ∧
      e.searchOlder start k lines = .plain { e with line, place := some j } out) ∨
    (∀ line ∈ lines, ¬ start <+: line) ∧ ∃ out, e.searchOlder start k lines =
      .plain { e with place := if lines = [] then e.place else some (e.history.length - 1) }
        out := by
  intro lines
  induction lines with
  | nil => intro k e _; exact .inr ⟨by simp, [], rfl⟩
  | cons line rest ih =>
    intro k e hlines
    have hline : e.history[k]? = some line := by
      rw [← List.head?_drop, hlines]
      rfl
    have hrest : e.history.drop (k + 1) = rest := by
      rw [← drop_drop, hlines]
      rfl
    unfold searchOlder
    by_cases hstart : start.isPrefixOf line = true
    · rw [if_pos hstart]
      exact .inl ⟨k, line, _, hline, isPrefixOf_iff_prefix.mp hstart, rfl⟩
    · rw [if_neg hstart]
      rcases ih (k + 1) { e with place := some k } hrest with hfound | ⟨hnone, out, heq⟩
      · exact .inl hfound
      · refine .inr ⟨?_, out, ?_⟩
        · rw [forall_mem_cons]
          exact ⟨fun h => hstart <| isPrefixOf_iff_prefix.mpr h, hnone⟩
        · -- The last line that is looked at is the oldest one.
          have hlast : (if rest = [] then some k else some (e.history.length - 1)) =
              some (e.history.length - 1) := by
            split
            · rename_i hnil
              have hlength := congrArg List.length hlines
              simp only [hnil, length_drop, length_cons, length_nil] at hlength
              rw [show k = e.history.length - 1 by omega]
            · rfl
          rw [if_neg (cons_ne_nil line rest)]
          exact heq.trans (congrArg (fun place => Effect.plain { e with place } out) hlast)

/-- The lines older than the place, the newest first. -/
def olderLines (e : Editor) : List Line := e.history.drop (e.place.elim 0 (· + 1))

/-- Going back to older lines shows a line of the history, or goes over all of them and leaves the
line. -/
theorem olderMatch_cases (e : Editor) : ∃ saved out,
    (∃ j line, e.history[j]? = some line ∧ e.before <+: line ∧
      e.olderMatch = .plain { e with line, place := some j, saved } out) ∨
    (∀ line ∈ e.olderLines, ¬ e.before <+: line) ∧ e.olderMatch = .plain { e with
      place := if e.olderLines = [] then e.place else some (e.history.length - 1), saved } out := by
  rcases searchOlder_cases e.before _ (e.place.elim 0 (· + 1))
    { e with saved := if e.place = none then e.line else e.saved } rfl with
      ⟨j, line, out, hline, hstart, heq⟩ | ⟨hnone, out, heq⟩
  · exact ⟨_, out, .inl ⟨j, line, hline, hstart, heq⟩⟩
  · exact ⟨_, out, .inr ⟨hnone, heq⟩⟩

/-- What a search for a newer line shows: the next line of the history that begins as required, or
the line that was left. -/
theorem searchNewer_eq (start : Line) (e : Editor) : ∀ k : Nat, ∃ out,
    (∃ j < k, start <+: e.history[j]?.getD [] ∧ e.searchNewer start k =
      .plain { e with line := e.history[j]?.getD [], place := some j } out) ∨
    (∀ j < k, ¬ start <+: e.history[j]?.getD []) ∧
      e.searchNewer start k = .plain { e with line := e.saved, place := none } out := by
  intro k
  induction k with
  | zero => exact ⟨_, .inr ⟨fun j hj => absurd hj (Nat.not_lt_zero j), rfl⟩⟩
  | succ k ih =>
    unfold searchNewer
    by_cases hstart : start.isPrefixOf (e.history[k]?.getD []) = true
    · rw [if_pos hstart]
      exact ⟨_, .inl ⟨k, Nat.lt_succ_self k, isPrefixOf_iff_prefix.mp hstart, rfl⟩⟩
    · rw [if_neg hstart]
      obtain ⟨out, ⟨j, hj, hj', heq⟩ | ⟨hnone, heq⟩⟩ := ih
      · exact ⟨out, .inl ⟨j, Nat.lt_succ_of_lt hj, hj', heq⟩⟩
      · refine ⟨out, .inr ⟨fun j hj => ?_, heq⟩⟩
        rcases Nat.lt_succ_iff_lt_or_eq.mp hj with hj | rfl
        · exact hnone j hj
        · rwa [List.isPrefixOf_iff_prefix] at hstart

/-- Going on to newer lines comes back to the line that was left: no newer line of the history
begins with the text in front of the cursor. -/
def LeavesHistory (e : Editor) : Prop :=
  ∃ k, e.place = some k ∧ ∀ j < k, ∀ line, e.history[j]? = some line → ¬ e.before <+: line

/-- Going on to newer lines leaves the history, stays where it is, or shows a line that begins with
the text in front of the cursor. -/
theorem newerMatch_cases (h : e.PlaceIn) :
    (e.LeavesHistory ∧ ∃ out, e.newerMatch = .plain { e with line := e.saved, place := none } out) ∨
    ¬ e.LeavesHistory ∧ ∃ line place out, e.newerMatch = .plain { e with line, place } out ∧
      (line = e.line ∨ e.before <+: line) ∧ ∀ j, place = some j → e.history[j]? = some line := by
  unfold newerMatch
  cases hplace : e.place with
  | none =>
    have hno : ∀ k, e.place ≠ some k := by simp [hplace]
    refine .inr ⟨?_, e.line, e.place, [], rfl, .inl rfl, fun j hj => absurd hj (hno j)⟩
    rintro ⟨k, hk, -⟩
    exact hno k hk
  | some k =>
    have hk := h k hplace
    have hline : ∀ j < k, e.history[j]? = some (e.history[j]?.getD []) := by
      intro j hj
      rw [List.getElem?_eq_getElem (by omega : j < e.history.length)]
      rfl
    obtain ⟨out, ⟨j, hj, hstart, heq⟩ | ⟨hnone, heq⟩⟩ := searchNewer_eq e.before e k
    · refine .inr ⟨?_, _, some j, out, heq, .inr hstart, fun i hi => ?_⟩
      · rintro ⟨k', hk', hleaves⟩
        rw [hplace] at hk'
        obtain rfl := Option.some.inj hk'
        exact hleaves j hj _ (hline j hj) hstart
      · rw [← Option.some.inj hi]
        exact hline j hj
    · refine .inl ⟨⟨k, hplace, fun j hj line hfound => ?_⟩, out, heq⟩
      have hnot := hnone j hj
      rwa [hfound] at hnot

/-- Going back to older lines shows a line that begins with the text in front of the cursor, if it
changes the line. -/
theorem olderMatch_eq (h : e.PlaceIn) : ∃ line place saved out,
    e.olderMatch = .plain { e with line, place, saved } out ∧
      (line = e.line ∨ e.before <+: line) ∧ ∀ j, place = some j → j < e.history.length := by
  obtain ⟨saved, out, ⟨j, line, hline, hstart, heq⟩ | ⟨-, heq⟩⟩ := olderMatch_cases e
  · refine ⟨line, some j, saved, out, heq, .inr hstart, fun i hi => ?_⟩
    rw [← Option.some.inj hi]
    exact (List.getElem?_eq_some_iff.mp hline).1
  · refine ⟨e.line, _, saved, out, heq, .inl rfl, fun j hj => ?_⟩
    split at hj
    · exact h j hj
    · rename_i hlines
      have hpos := length_pos_iff.mpr hlines
      rw [olderLines, length_drop] at hpos
      rw [← Option.some.inj hj]
      omega

/-- A line that begins with the text in front of the cursor has room for the cursor. -/
theorem CursorIn.of_before (h : e.CursorIn) {line : Line}
    (hline : line = e.line ∨ e.before <+: line) : e.cursor ≤ line.length := by
  rcases hline with rfl | hupTo
  · exact h
  · rw [← h.length_before]
    exact hupTo.length_le

/-! ## One key -/

theorem placeIn_enterLine (h : e.PlaceIn) (row : Int) : (e.enterLine row).editor.PlaceIn := by
  unfold enterLine
  split
  · exact placeIn_of_none rfl
  · intro k hk
    have hlt := h k hk
    show k < (if e.place = some 0 then e.history else e.line :: e.history).length
    split
    · exact hlt
    · exact Nat.lt_succ_of_lt hlt

theorem placeIn_older (h : e.PlaceIn) : e.older.editor.PlaceIn := by
  unfold older
  dsimp only
  split
  · exact h
  · rename_i line hline
    intro k hk
    obtain rfl := Option.some.inj hk
    exact (List.getElem?_eq_some_iff.mp hline).1

theorem placeIn_newer (h : e.PlaceIn) : e.newer.editor.PlaceIn := by
  unfold newer
  split
  · exact h
  · exact placeIn_of_none rfl
  · rename_i k hplace
    intro j hj
    have hk := h _ hplace
    rw [← Option.some.inj hj]
    exact Nat.lt_of_succ_lt hk

/-- No key loses the place in the history. -/
theorem placeIn_press (h : e.PlaceIn) (row : Int) (key : Key) :
    (e.press row key).editor.PlaceIn := by
  cases key with
  | left =>
    simp only [press, moveLeft]
    split <;> exact h
  | right =>
    simp only [press, moveRight]
    split <;> exact h
  | home | toEnd | wordRight | clear | complete | interrupt | unknown => exact h
  | wordLeft =>
    simp only [press, moveWordLeft]
    split
    · exact h
    · split <;> exact h
  | up => exact placeIn_older h
  | down => exact placeIn_newer h
  | pageUp =>
    obtain ⟨line, place, saved, out, heq, -, hplace⟩ := olderMatch_eq h
    rw [press, heq]
    exact hplace
  | pageDown =>
    rcases newerMatch_cases h with ⟨-, out, heq⟩ | ⟨-, line, place, out, heq, -, hline⟩
    · rw [press, heq]
      exact placeIn_of_none rfl
    · rw [press, heq]
      exact fun k hk => (List.getElem?_eq_some_iff.mp (hline k hk)).1
  | backspace =>
    simp only [press, deleteLeft]
    split
    · exact h
    · exact placeIn_of_none rfl
  | delete =>
    simp only [press, deleteHere]
    split
    · exact h
    · exact placeIn_of_none rfl
  | eraseWord =>
    simp only [press, deleteWord]
    split
    · exact h
    · split
      · exact h
      · exact placeIn_of_none rfl
  | eraseBefore | eraseAfter | text => exact placeIn_of_none rfl
  | enter => exact placeIn_enterLine h row

/-- Text that is put in leaves the cursor right behind it. -/
theorem cursorIn_insert (e : Editor) (chunk : Line) : (e.insert chunk).editor.CursorIn := by
  simp only [insert, Effect.plain, CursorIn, length_append]
  omega

section Cursor

variable (h : e.CursorIn)

include h

theorem cursorIn_moveLeft : e.moveLeft.1.CursorIn := by
  unfold moveLeft
  split
  · exact h
  · exact Nat.le_trans (Nat.sub_le _ _) h

theorem cursorIn_deleteHere : e.deleteHere.1.CursorIn := by
  unfold CursorIn at h
  unfold deleteHere
  split
  · exact h
  · rename_i hne
    have hbefore : e.before.length = e.cursor := CursorIn.length_before h
    simp only [CursorIn, length_append, hbefore, length_drop]
    omega

theorem cursorIn_deleteLeft : e.deleteLeft.editor.CursorIn := by
  unfold deleteLeft
  split
  · exact h
  · exact cursorIn_deleteHere (cursorIn_moveLeft h)

theorem cursorIn_deleteWord : e.deleteWord.editor.CursorIn := by
  unfold deleteWord
  split
  · exact h
  · rw [h.previousWord]
    have hstart := wordStart_le e.line e.cursor
    unfold CursorIn at h
    simp only [Effect.plain, CursorIn, length_append, length_take]
    omega

theorem cursorIn_moveWordLeft : e.moveWordLeft.editor.CursorIn := by
  unfold moveWordLeft
  split
  · exact h
  · rw [h.previousWord]
    exact Nat.le_trans (wordStart_le e.line e.cursor) h

theorem cursorIn_older : e.older.editor.CursorIn := by
  unfold older
  dsimp only
  split
  · exact h
  · exact Nat.le_refl _

theorem cursorIn_newer : e.newer.editor.CursorIn := by
  unfold newer
  split
  · exact h
  · exact Nat.le_refl _
  · exact Nat.le_refl _

theorem cursorIn_enterLine (row : Int) : (e.enterLine row).editor.CursorIn := by
  unfold enterLine
  split
  · exact Nat.le_refl _
  · exact h

/-- Every key but one leaves the cursor in the line. -/
theorem cursorIn_press (hplace : e.PlaceIn) (row : Int) {key : Key} (hkey : key ≠ .pageDown) :
    (e.press row key).editor.CursorIn := by
  cases key with
  | left => exact cursorIn_moveLeft h
  | right =>
    simp only [press, moveRight]
    split
    · rename_i hlt
      exact hlt
    · exact h
  | home | eraseBefore => exact Nat.zero_le _
  | toEnd | clear | interrupt => exact Nat.le_refl _
  | wordLeft => exact cursorIn_moveWordLeft h
  | wordRight => exact h.nextWord
  | up => exact cursorIn_older h
  | down => exact cursorIn_newer h
  | pageUp =>
    obtain ⟨line, place, saved, out, heq, hline, -⟩ := olderMatch_eq hplace
    rw [press, heq]
    exact h.of_before hline
  | pageDown => exact absurd rfl hkey
  | backspace => exact cursorIn_deleteLeft h
  | delete => exact cursorIn_deleteHere h
  | eraseWord => exact cursorIn_deleteWord h
  | eraseAfter => exact Nat.le_of_eq h.length_before.symm
  | enter => exact cursorIn_enterLine h row
  | text chunk => exact cursorIn_insert e chunk
  | complete | unknown => exact h

/-- With the cursor in the line, no key looks at a character that is not there. -/
theorem fault_press (hplace : e.PlaceIn) (row : Int) (key : Key) :
    (e.press row key).fault = none := by
  cases key with
  | home | toEnd | wordRight | clear | complete | interrupt | unknown | left | delete | eraseBefore
    | eraseAfter
  | text => rfl
  | right =>
    simp only [press, moveRight]
    split <;> rfl
  | wordLeft =>
    simp only [press, moveWordLeft, h.previousWord]
    split <;> rfl
  | up =>
    simp only [press, older]
    split <;> rfl
  | down =>
    simp only [press, newer]
    split <;> rfl
  | pageUp =>
    obtain ⟨line, place, saved, out, heq, -⟩ := olderMatch_eq hplace
    rw [press, heq]
    rfl
  | pageDown =>
    rcases newerMatch_cases hplace with ⟨-, out, heq⟩ | ⟨-, line, place, out, heq, -⟩
    · rw [press, heq]
      rfl
    · rw [press, heq]
      rfl
  | backspace =>
    simp only [press, deleteLeft]
    split <;> rfl
  | eraseWord =>
    simp only [press, deleteWord, h.previousWord]
    split <;> rfl
  | enter =>
    simp only [press, enterLine]
    split <;> rfl

end Cursor

/-! ### With its answers -/

theorem afterCompletion_bounds (e : Editor) (c : Completion) (row : Int) :
    (e.PlaceIn → (e.afterCompletion c row).editor.PlaceIn) ∧
      (e.CursorIn → (e.afterCompletion c row).editor.CursorIn) ∧
      (e.afterCompletion c row).fault ≠ some .outOfRange := by
  unfold afterCompletion
  split
  · exact ⟨id, fun _ => Nat.le_refl _, by simp [Effect.plain]⟩
  · exact ⟨id, id, by simp [Effect.plain]⟩
  · exact ⟨id, fun _ => Nat.le_refl _, by simp [Effect.plain]⟩
  · split
    · exact ⟨id, id, by simp [Effect.fails]⟩
    · exact ⟨id, id, by simp [Effect.fails]⟩
    · exact ⟨id, fun _ => Nat.le_refl _, by simp [Effect.plain]⟩

theorem placeIn_handle (h : e.PlaceIn) (a : Answers) (key : Key) :
    (e.handle a key).editor.PlaceIn := by
  have hpress := placeIn_press h a.row key
  unfold handle
  dsimp only
  split
  · exact hpress
  · exact placeIn_of_none rfl
  · exact (afterCompletion_bounds _ a.completion a.laterRow).1 hpress
  · exact hpress

/-- A key leaves the cursor in the line, unless it comes back to the line that was left and that is
too short. -/
theorem cursorIn_handle_iff (hplace : e.PlaceIn) (h : e.CursorIn) (a : Answers) (key : Key) :
    (e.handle a key).editor.CursorIn ↔
      ¬ (key = .pageDown ∧ e.LeavesHistory ∧ e.saved.length < e.cursor) := by
  by_cases hkey : key = .pageDown
  · subst hkey
    rcases newerMatch_cases hplace with ⟨hleaves, out, heq⟩ | ⟨hstays, line, place, out, heq,
      hline, -⟩
    · have hhandle : e.handle a .pageDown = .plain { e with line := e.saved, place := none }
          out := by
        rw [handle, press, heq]
        rfl
      rw [hhandle]
      constructor
      · rintro hin ⟨-, -, hlt⟩
        exact absurd hlt (Nat.not_lt.mpr hin)
      · intro hnot
        exact Nat.not_lt.mp fun hlt => hnot ⟨rfl, hleaves, hlt⟩
    · have hhandle : e.handle a .pageDown = .plain { e with line, place } out := by
        rw [handle, press, heq]
        rfl
      rw [hhandle]
      exact ⟨fun _ hstrays => hstays hstrays.2.1, fun _ => h.of_before hline⟩
  · refine iff_of_true ?_ fun hstrays => hkey hstrays.1
    have hpress := cursorIn_press h hplace a.row hkey
    unfold handle
    dsimp only
    split
    · exact hpress
    · exact Nat.le_refl _
    · exact (afterCompletion_bounds _ a.completion a.laterRow).2.1 hpress
    · exact hpress

theorem fault_handle (hplace : e.PlaceIn) (h : e.CursorIn) (a : Answers) (key : Key) :
    (e.handle a key).fault ≠ some .outOfRange := by
  have hpress := fault_press h hplace a.row key
  unfold handle
  dsimp only
  split
  · rw [hpress]
    exact Option.some_ne_none _ ∘ Eq.symm
  · simp [afterRun, Effect.plain]
  · exact (afterCompletion_bounds _ a.completion a.laterRow).2.2
  · simp [afterInterrupt, Effect.plain]

/-! ### As the terminal sends it -/

/-- The input comes back to the line that was left, and that is too short for the cursor. -/
def Strays (e : Editor) (input : String) : Prop :=
  Key.ofInput input = .ok .pageDown ∧ e.LeavesHistory ∧ e.saved.length < e.cursor

theorem placeIn_process (h : e.PlaceIn) (a : Answers) (input : String) :
    (e.process a input).editor.PlaceIn := by
  unfold process
  split
  · exact placeIn_handle h a _
  · exact h

theorem cursorIn_process_iff (hplace : e.PlaceIn) (h : e.CursorIn) (a : Answers) (input : String) :
    (e.process a input).editor.CursorIn ↔ ¬ e.Strays input := by
  unfold process Strays
  cases Key.ofInput input with
  | ok key =>
    rw [cursorIn_handle_iff hplace h, Except.ok.injEq]
  | error f => exact iff_of_true h fun hstrays => by cases hstrays.1

theorem fault_process (hplace : e.PlaceIn) (h : e.CursorIn) (a : Answers) (input : String) :
    (e.process a input).fault ≠ some .outOfRange := by
  unfold process
  split
  · exact fault_handle hplace h a _
  · rename_i f hinput
    -- Only an empty input is no key.
    have hf : f = .emptyWord := by
      unfold Key.ofInput at hinput
      split at hinput
      · cases hinput
      · split at hinput
        · cases hinput
          rfl
        · cases hinput
    rw [hf]
    simp [Effect.fails]

/-! ## Sequences of keys -/

theorem placeIn_edited (h : e.PlaceIn) (inputs : List (String × Answers)) :
    (e.edited inputs).PlaceIn := by
  induction inputs using reverseRecOn with
  | nil => exact h
  | append_singleton inputs i ih =>
    rw [edited_concat]
    exact placeIn_process ih i.2 i.1

/-- The cursor is in the line at the end, if it never strays on the way. -/
theorem cursorIn_edited (hplace : e.PlaceIn) (h : e.CursorIn) (inputs : List (String × Answers))
    (hstays : ∀ before i, before ++ [i] <+: inputs → ¬ (e.edited before).Strays i.1) :
    (e.edited inputs).CursorIn := by
  induction inputs using reverseRecOn with
  | nil => exact h
  | append_singleton inputs i ih =>
    have hbefore : (e.edited inputs).CursorIn :=
      ih fun before j hupTo => hstays before j (hupTo.trans (prefix_append inputs [i]))
    rw [edited_concat, cursorIn_process_iff (placeIn_edited hplace inputs) hbefore]
    exact hstays inputs i (prefix_refl _)

/-- An editor with a history, in which nothing has been entered yet. -/
def opened (row : Int) (history : List Line) (raw : Bool) : Editor :=
  { start row with history, raw }

/-- From an editor in which nothing has been entered, after any sequence of inputs and whatever is
answered: the place in the history is one. The cursor is in the line after each of them exactly if
none comes back to a line that was left and is too short for the cursor; and then none looks at a
character of the line that is not there. -/
theorem cursor_in_line_iff (row : Int) (history : List Line) (raw : Bool)
    (inputs : List (String × Answers)) :
    (∀ before, before <+: inputs → ((opened row history raw).edited before).PlaceIn) ∧
    ((∀ before, before <+: inputs → ((opened row history raw).edited before).CursorIn) ↔
      ∀ before i, before ++ [i] <+: inputs →
        ¬ ((opened row history raw).edited before).Strays i.1) ∧
    ((∀ before i, before ++ [i] <+: inputs →
      ¬ ((opened row history raw).edited before).Strays i.1) →
      ∀ before i, before ++ [i] <+: inputs →
        (((opened row history raw).edited before).process i.2 i.1).fault ≠ some .outOfRange) := by
  have hplace : ∀ before, ((opened row history raw).edited before).PlaceIn :=
    placeIn_edited (placeIn_of_none rfl)
  have hstart : (opened row history raw).CursorIn := Nat.le_refl 0
  have hcursor : (∀ before i, before ++ [i] <+: inputs →
      ¬ ((opened row history raw).edited before).Strays i.1) →
      ∀ before, before <+: inputs → ((opened row history raw).edited before).CursorIn :=
      fun hstays before hupTo =>
    cursorIn_edited (hplace []) hstart before fun earlier i hearlier =>
      hstays earlier i (hearlier.trans hupTo)
  refine ⟨fun before _ => hplace before, ⟨fun hin before i hupTo => ?_, hcursor⟩,
    fun hstays before i hupTo => ?_⟩
  · have hbefore := hin before ((prefix_append before [i]).trans hupTo)
    have hafter := hin (before ++ [i]) hupTo
    rwa [edited_concat, cursorIn_process_iff (hplace before) hbefore] at hafter
  · exact fault_process (hplace before)
      (hcursor hstays before ((prefix_append before [i]).trans hupTo)) i.2 i.1

/-- Nothing to complete, on a terminal whose cursor is in the first row. -/
def nothingFound : Answers := ⟨1, 1, ⟨some [], some [], none⟩⟩

/-- A line is begun, found in the history, left again and erased. -/
def backAndForth : List (String × Answers) :=
  [("ab", nothingFound), ("\x1b[5~", nothingFound), ("\x1b[6~", nothingFound),
    ("\x17", nothingFound)]

/-- The cursor stays behind the text that was typed, which both lines begin with. -/
theorem cursor_in_line_iff_back :
    ((opened 1 ["abcd".toList] true).edited (backAndForth.take 2)).line = "abcd".toList ∧
      ((opened 1 ["abcd".toList] true).edited (backAndForth.take 3)).line = "ab".toList ∧
      (∀ before, before <+: backAndForth →
        ((opened 1 ["abcd".toList] true).edited before).CursorIn) ∧
      ∀ before i, before ++ [i] <+: backAndForth →
        (((opened 1 ["abcd".toList] true).edited before).process i.2 i.1).fault ≠
          some .outOfRange := by
  have hinits : ∀ before ∈ backAndForth.inits,
      ((opened 1 ["abcd".toList] true).edited before).cursor ≤
      ((opened 1 ["abcd".toList] true).edited before).line.length := by decide +kernel
  have hin : ∀ before, before <+: backAndForth →
      ((opened 1 ["abcd".toList] true).edited before).CursorIn :=
    fun before hupTo => hinits before (mem_inits _ _ |>.mpr hupTo)
  obtain ⟨-, hiff, hfaults⟩ := cursor_in_line_iff 1 ["abcd".toList] true backAndForth
  exact ⟨by decide +kernel, by decide +kernel, hin, hfaults (hiff.mp hin)⟩

/-- A line is entered, shown again, and left for the empty line that is being written. -/
def leftForEmpty : List (String × Answers) :=
  [("ab", nothingFound), ("\r", nothingFound), ("\x1b[A", nothingFound), ("\x1b[6~", nothingFound)]

/-- The cursor stays behind the line that was left, and then the word in front of it is not
found. -/
theorem cursor_leaves_line :
    ((start 1).edited leftForEmpty).line = [] ∧ ((start 1).edited leftForEmpty).cursor = 2 ∧
      (((start 1).edited leftForEmpty).process nothingFound "\x17").fault = some .outOfRange := by
  decide +kernel

end Editor

/-! ## At the prompt -/

namespace Shell

open Act Editor

variable {row : Int} {e e' : Editor} {σ σ' : Session}

theorem settle_eq_ok {effect : Effect} (h : settle effect σ = .ok e' σ') :
    effect.editor = e' ∧ effect.fault = none := by
  obtain ⟨_, σ₁, -, h⟩ := bind_eq_ok.mp h
  cases hfault : effect.fault with
  | some f =>
    rw [hfault] at h
    cases h
  | none =>
    rw [hfault] at h
    exact ⟨(pure_eq_ok.mp h).1, rfl⟩

/-- A key at the prompt has the effect of the key, with what the session answers. -/
theorem press_processes {input : String} (h : press row e input σ = .ok e' σ') :
    ∃ a, e' = (e.process a input).editor ∧ (e.process a input).fault = none := by
  unfold press at h
  obtain ⟨key, σ₁, hkey, h⟩ := bind_eq_ok.mp h
  obtain ⟨_, σ₂, hfirst, h⟩ := bind_eq_ok.mp h
  obtain ⟨heditor, hfault⟩ := settle_eq_ok hfirst
  subst heditor
  have hinput : Key.ofInput input = .ok key := by
    cases hof : Key.ofInput input with
    | ok k =>
      rw [hof] at hkey
      cases hkey
      rfl
    | error f =>
      rw [hof] at hkey
      cases hkey
  -- The last effect of the key is that of the whole key.
  have hlast : ∀ {last : Effect} (c : Completion), e.handle ⟨row, row, c⟩ key = last →
      last.editor = e' ∧ last.fault = none → ∃ a, e' = (e.process a input).editor ∧
      (e.process a input).fault = none := by
    rintro _ c rfl ⟨rfl, hnone⟩
    refine ⟨⟨row, row, c⟩, ?_⟩
    rw [process, hinput]
    exact ⟨rfl, hnone⟩
  cases hrequest : (e.press row key).request with
  | nothing =>
    rw [hrequest] at h
    exact hlast ⟨none, none, none⟩ (by rw [handle, hrequest]) ⟨(pure_eq_ok.mp h).1, hfault⟩
  | run line =>
    rw [hrequest] at h
    obtain ⟨_, σ₃, -, h⟩ := bind_eq_ok.mp h
    exact hlast ⟨none, none, none⟩ (by rw [handle, hrequest]) (settle_eq_ok h)
  | complete start =>
    rw [hrequest] at h
    obtain ⟨found, σ₃, -, h⟩ := bind_eq_ok.mp h
    exact hlast found (by rw [handle, hrequest]) (settle_eq_ok h)
  | interrupt =>
    rw [hrequest] at h
    exact hlast ⟨none, none, none⟩ (by rw [handle, hrequest]) (settle_eq_ok h)

/-- What is typed at the prompt, up to the key that ends the session, edits the line key by key. -/
theorem pressAll_edits :
    ∀ {keys : List String} {e : Editor} {σ : Session}, pressAll row e keys σ = .ok e' σ' →
    ∃ inputs, inputs.map Prod.fst = keys.takeWhile (· ≠ Key.ending) ∧ e' = e.edited inputs := by
  intro keys
  induction keys with
  | nil =>
    intro e σ h
    obtain ⟨rfl, -⟩ := pure_eq_ok.mp h
    exact ⟨[], rfl, rfl⟩
  | cons key rest ih =>
    intro e σ h
    unfold pressAll at h
    by_cases hend : key = Key.ending
    · rw [if_pos hend] at h
      obtain ⟨rfl, -⟩ := pure_eq_ok.mp h
      exact ⟨[], by simp [hend], rfl⟩
    · rw [if_neg hend] at h
      obtain ⟨e₁, σ₁, hpress, hrest⟩ := bind_eq_ok.mp h
      obtain ⟨a, rfl, -⟩ := press_processes hpress
      obtain ⟨inputs, hinputs, rfl⟩ := ih hrest
      exact ⟨(key, a) :: inputs, by simp [hend, hinputs], rfl⟩

end Shell

end Decompiler
