import Decompiler.Proofs.SectionBytes
import Decompiler.Shell.Run
/-!
# The history between two sessions

When the shell is closed the history is written to a file, the oldest line first and each line with
a line feed; when it is opened again the file is read line by line, and of each line the last
character is dropped. A line feed or a carriage return inside of an entered line ends a line of the
file, so the history comes back as it was exactly if no line of it has one
(`Shell.history_survives_iff`). Reading never gives a line that has one
(`Editor.unbroken_of_mem_historyOf`), which is one half; the other is that lines without one are
found again (`Editor.historyOf_historyText`).
-/

namespace Decompiler

open List

/-- A line of text in which no line ends. -/
def Text.Unbroken (line : Line) : Prop := '\n' ∉ line ∧ '\r' ∉ line

/-! ## Lines of a text -/

namespace Text

theorem return_not_mem_unifyLineEnds (cs : List Char) : '\r' ∉ unifyLineEnds cs := by
  fun_induction unifyLineEnds cs with
  | case1 => exact not_mem_nil
  | case2 rest ih | case3 rest _ ih => simpa using ih
  | case4 c rest _ hc ih =>
    have hne : '\r' ≠ c := fun h => hc h.symm
    simpa [hne] using ih

theorem unifyLineEnds_of_not_mem {cs : List Char} (h : '\r' ∉ cs) : unifyLineEnds cs = cs := by
  fun_induction unifyLineEnds cs with
  | case1 => rfl
  | case2 | case3 => simp at h
  | case4 c rest _ _ ih => rw [ih (not_mem_of_not_mem_cons h)]

/-- A line of a text has no line feed but the one that it ends with. -/
theorem feed_not_mem_dropLast_linesFrom {l : List Char} (cs : List Char) :
    ∀ {line : List Char}, '\n' ∉ line → l ∈ linesFrom line cs → '\n' ∉ l.dropLast := by
  induction cs with
  | nil =>
    intro line hline hl
    unfold linesFrom at hl
    split at hl
    · cases hl
    · -- The text ends without a line feed: what is dropped is an ordinary character.
      obtain rfl := mem_singleton.mp hl
      exact fun hc => hline (mem_reverse.mp (mem_of_mem_dropLast hc))
  | cons c rest ih =>
    intro line hline hl
    unfold linesFrom at hl
    by_cases hc : c = '\n'
    · rw [if_pos hc] at hl
      rcases mem_cons.mp hl with rfl | hl
      · simpa using hline
      · exact ih not_mem_nil hl
    · rw [if_neg hc] at hl
      exact ih (by simpa [Ne.symm hc] using hline) hl

/-- The lines of a text have no other characters than the text. -/
theorem mem_of_mem_linesFrom {l : List Char} {x : Char} (hx : x ∈ l) (cs : List Char) :
    ∀ {line : List Char}, l ∈ linesFrom line cs → x ∈ line ∨ x ∈ cs := by
  induction cs with
  | nil =>
    intro line hl
    unfold linesFrom at hl
    split at hl
    · cases hl
    · obtain rfl := mem_singleton.mp hl
      exact .inl (mem_reverse.mp hx)
  | cons c rest ih =>
    intro line hl
    unfold linesFrom at hl
    split at hl
    · rcases mem_cons.mp hl with rfl | hl
      · rcases mem_cons.mp (mem_reverse.mp hx) with rfl | hx
        · exact .inr (.head _)
        · exact .inl hx
      · exact .inr (mem_cons_of_mem c ((ih hl).resolve_left not_mem_nil))
    · rcases ih hl with hx | hx
      · rcases mem_cons.mp hx with rfl | hx
        · exact .inr (.head _)
        · exact .inl hx
      · exact .inr (mem_cons_of_mem c hx)

/-- The first line of a text goes up to its first line feed. -/
theorem linesFrom_append_feed {start : List Char} (h : '\n' ∉ start) (rest : List Char) :
    ∀ line : List Char,
    linesFrom line (start ++ '\n' :: rest) = (line.reverse ++ start ++ ['\n']) ::
      linesFrom [] rest := by
  induction start with
  | nil =>
    intro line
    simp [linesFrom]
  | cons c more ih =>
    intro line
    have hc : c ≠ '\n' := fun hc => h (hc ▸ .head _)
    rw [cons_append, linesFrom, if_neg hc, ih (not_mem_of_not_mem_cons h) (c :: line)]
    simp

/-- Lines that are written one after the other, each with a line feed, are the lines of what was
written. -/
theorem linesFrom_flatMap {ls : List Line} (h : ∀ l ∈ ls, '\n' ∉ l) :
    linesFrom [] (ls.flatMap (· ++ ['\n'])) = ls.map (· ++ ['\n']) := by
  induction ls with
  | nil => rfl
  | cons l more ih =>
    have hmore := ih fun l' hl' => h l' (mem_cons_of_mem l hl')
    rw [flatMap_cons, append_assoc, singleton_append,
      linesFrom_append_feed (h l (.head _)), hmore]
    rfl

end Text

/-! ## The text of a history -/

namespace Editor

open Text

theorem historyOf_eq (text : String) :
    historyOf text = ((linesFrom [] (unifyLineEnds text.toList)).map List.dropLast).reverse := by
  simp [historyOf, lines]

/-- Whatever text is read, no line that is found in it has a line end. -/
theorem unbroken_of_mem_historyOf {text : String} {line : Line} (h : line ∈ historyOf text) :
    Unbroken line := by
  rw [historyOf_eq, mem_reverse] at h
  obtain ⟨l, hl, rfl⟩ := mem_map.mp h
  refine ⟨feed_not_mem_dropLast_linesFrom _ not_mem_nil hl, fun hreturn => ?_⟩
  have hmem := (mem_of_mem_linesFrom (mem_of_mem_dropLast hreturn) _ hl).resolve_left not_mem_nil
  exact return_not_mem_unifyLineEnds _ hmem

/-- A history without line ends is found in its text. -/
theorem historyOf_historyText {history : List Line} (h : ∀ line ∈ history, Unbroken line) :
    historyOf (historyText history) = history := by
  -- Without carriage returns the line ends of the text are read as they were written.
  have hreturn : '\r' ∉ history.reverse.flatMap (· ++ ['\n']) := by
    intro hmem
    obtain ⟨line, hline, hmem⟩ := mem_flatMap.mp hmem
    have hnot := (h line (mem_reverse.mp hline)).2
    simp [hnot] at hmem
  have hfeed : ∀ line ∈ history.reverse, '\n' ∉ line :=
    fun line hline => (h line (mem_reverse.mp hline)).1
  rw [historyOf_eq, historyText, String.toList_ofList, unifyLineEnds_of_not_mem hreturn,
    linesFrom_flatMap hfeed, map_map]
  simp [Function.comp_def]

/-- A history is found in its text exactly if none of its lines has a line end. -/
theorem historyOf_historyText_iff (history : List Line) :
    historyOf (historyText history) = history ↔ ∀ line ∈ history, Unbroken line := by
  constructor
  · intro h line hline
    rw [← h] at hline
    exact unbroken_of_mem_historyOf hline
  · exact historyOf_historyText

end Editor

/-! ## Files -/

namespace Files

/-- After a file was written, what stands first under its path is what was written. -/
theorem find?_split_write (fs : Files) (path text : String) :
    (fs.write path text).split.find? (·.1 = Path.steps path) =
      some (Path.steps path, .file (.ofText text)) := by
  obtain ⟨entries⟩ := fs
  unfold write
  dsimp only
  split
  · -- Every entry of the path is replaced, and so is the first one.
    rename_i hany
    induction entries with
    | nil => cases hany
    | cons e rest ih =>
      by_cases he : Path.steps e.1 = Path.steps path
      · simp [split, he]
      · have hrest : (rest.any fun e => Path.steps e.1 = Path.steps path) = true := by
          simpa [he] using hany
        have hfound := ih hrest
        simpa [split, he] using hfound
  · rename_i hnone
    have hother : (entries.map fun e => (Path.steps e.1, e.2)).find? (·.1 = Path.steps path) =
        none := by
      rw [List.find?_map, Option.map_eq_none_iff, List.find?_eq_none]
      simpa using hnone
    rw [split, map_append, List.find?_append, hother]
    simp

/-- A file in the working directory is read as it was written. -/
theorem contents?_write (fs : Files) (name text : String) (hparts : Path.parts name = [name])
    (hname : name ∉ ["", ".", ".."]) :
    (fs.write name text).contents? name = some (.ofText text) := by
  simp only [mem_cons, not_mem_nil, or_false, not_or] at hname
  obtain ⟨hempty, hdot, hup⟩ := hname
  have hsteps : Path.steps name = [name] := by simp [Path.steps, hparts, hempty, hdot]
  have hfound := fs.find?_split_write name text
  rw [hsteps] at hfound
  have hentry : (fs.write name text).entryAt [name] = some (.file (.ofText text)) := by
    simp [entryAt, hfound]
  have hresolve : (fs.write name text).resolve name =
      .ok (.inside [name], .file (.ofText text)) := by
    simp [resolve, hparts, follow, hempty, hdot, hup, hentry]
  simp [contents?, lookup, hresolve, Except.toOption]

end Files

/-- A file of text is read as the text that was written. -/
theorem utf8?_ofText (text : String) : utf8? (FileContents.ofText text).bytes = some text := by
  show String.fromUTF8? ⟨text.toUTF8.data.toList.toArray⟩ = some text
  rw [Array.toArray_toList]
  show String.fromUTF8? text.toUTF8 = some text
  rw [String.fromUTF8?, String.toUTF8_eq_toByteArray, dif_pos text.isValidUTF8]
  rfl

/-! ## Closing and opening the shell -/

namespace Shell

open Act

/-- The shell is closed by writing the history, if its file can be written. -/
theorem close_eq {s : Session} (hconsole : s.console.redirect = none)
    (hfile : s.files.checkWritable historyFile = .ok ()) (e : Editor) :
    close e s = .ok () { s with
      console := { s.console with out := s.console.out ++ "\n" }
      files := s.files.write historyFile (Editor.historyText e.history) } := by
  unfold close
  have hprint : print "\n" s = .ok ()
      { s with console := { s.console with out := s.console.out ++ "\n" } } := by
    rw [← s.printed_out hconsole]
    rfl
  rw [bind_of_ok hprint]
  unfold writeFile
  rw [get_bind_apply]
  exact bind_of_ok (ask_eq_ok.mpr ⟨hfile, rfl⟩)

/-- A shell that is opened without a file begins with the history that was kept. -/
theorem begin_start (row : Int) (options : Options) {files : Files} {text : String}
    (hfile : files.contents? historyFile = some (.ofText text)) :
    ∃ s, begin row (Session.start options files) =
      .ok { Editor.start row with history := Editor.historyOf text, raw := true } s := by
  unfold begin
  rw [get_bind_apply, modify_bind_apply]
  dsimp only [Session.start]
  rw [get_bind_apply]
  dsimp only
  rw [hfile]
  dsimp only
  rw [utf8?_ofText]
  exact ⟨_, rfl⟩

/-- A shell is closed and another one is opened on the files that it leaves. Where the file of the
history can be written, both succeed, and the second shell has the history of the first one exactly
if no line of it has a line end. -/
theorem history_survives_iff {s : Session} (hconsole : s.console.redirect = none)
    (hfile : s.files.checkWritable historyFile = .ok ()) (e : Editor) (row : Int)
    (options : Options) :
    ∃ s' e' σ', close e s = .ok () s' ∧ begin row (Session.start options s'.files) = .ok e' σ' ∧
      (e'.history = e.history ↔ ∀ line ∈ e.history, '\n' ∉ line ∧ '\r' ∉ line) := by
  have hkept := s.files.contents?_write historyFile (Editor.historyText e.history) (by decide)
    (by decide)
  obtain ⟨σ', hopen⟩ := begin_start row options hkept
  exact ⟨_, _, σ', close_eq hconsole hfile e, hopen, Editor.historyOf_historyText_iff e.history⟩

/-- Three lines, one of them empty, are there again in the next session. -/
theorem history_survives_iff_lines :
    let s := Session.start Options.standard ⟨[]⟩
    let e := { Editor.start 1 with history := ["x main".toList, [], "load f".toList] }
    s.console.redirect = none ∧ s.files.checkWritable historyFile = .ok () ∧
      ∃ s' e' σ', close e s = .ok () s' ∧
        begin 1 (Session.start Options.standard s'.files) = .ok e' σ' ∧
        e'.history = ["x main".toList, [], "load f".toList] := by
  intro s e
  have hfile : s.files.checkWritable historyFile = .ok () := by decide
  obtain ⟨s', e', σ', hclose, hopen, hiff⟩ := history_survives_iff rfl hfile e 1 Options.standard
  exact ⟨rfl, hfile, s', e', σ', hclose, hopen, hiff.mpr (by decide)⟩

end Shell

end Decompiler
