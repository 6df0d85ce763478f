import Decompiler.Proofs.CompletedLines
import Decompiler.Proofs.Quoting
import Mathlib.Data.List.TakeWhile
/-!
# File names completed in a command line

A candidate for a file is cut from its name with escaped spaces, by the length of what has been read
of the name. That is too little by one character for every space in it, and quotation marks,
backslashes and the other blanks are not escaped at all. Where neither matters, the completed line
is read as meant (`Shell.completed_name_read`).
-/

namespace Decompiler

open List

namespace Text

/-- A character that is no blank, no backslash and no quotation mark. -/
def isPlain (c : Char) : Bool := !isWordBreak c && c ≠ '\\' && !isQuoteMark c

/-- A text that needs no escapes but those of spaces. -/
def Escapable (cs : List Char) : Prop := ∀ c ∈ cs, c = ' ' ∨ isPlain c = true

instance (cs : List Char) : Decidable (Escapable cs) :=
  List.decidableBAll (fun c => c = ' ' ∨ isPlain c = true) cs

/-- A text with its spaces escaped. -/
def escaped (cs : List Char) : List Char := cs.flatMap fun c => if c = ' ' then ['\\', ' '] else [c]

section Reading

variable {c : Char} {w cs m : List Char}

theorem escaped_append (cs cs' : List Char) : escaped (cs ++ cs') = escaped cs ++ escaped cs' :=
  flatMap_append

theorem escaped_of_not_mem (h : ' ' ∉ m) : escaped m = m := by
  rw [escaped, flatMap_congr (g := ([·])) fun c hc => if_neg (by rintro rfl; exact h hc),
    flatMap_singleton']

theorem wordsFrom_plain (hc : isPlain c = true) :
    wordsFrom .inWord ⟨w, false⟩ (c :: cs) = wordsFrom .inWord ⟨c :: w, false⟩ cs := by
  obtain ⟨⟨hbreak, hback⟩, hquote⟩ : (isWordBreak c = false ∧ c ≠ '\\') ∧
      isQuoteMark c = false := by
    simpa [isPlain] using hc
  simp [wordsFrom_cons (.inr rfl), hbreak, hback, hquote, Word.push]

/-- A text with its spaces escaped is read as it is, whatever stands behind it. -/
theorem wordsFrom_escaped (h : Escapable m) :
    ∀ w, wordsFrom .inWord ⟨w, false⟩ (escaped m ++ cs) = wordsFrom .inWord ⟨m.reverseAux w, false⟩
      cs := by
  induction m with
  | nil => exact fun w => rfl
  | cons c m ih =>
    intro w
    obtain ⟨hc, hm⟩ := forall_mem_cons.mp h
    rw [List.reverseAux, ← ih hm]
    rcases hc with rfl | hc
    · rfl
    · rw [← wordsFrom_plain hc, escaped, flatMap_cons, if_neg (by rintro rfl; cases hc)]
      rfl

end Reading

end Text

/-! ## Names in a directory -/

theorem not_mem_of_mem_splitOn {c : Char} {cs : List Char} : ∀ l ∈ cs.splitOn c, c ∉ l := by
  induction cs with
  | nil => simp
  | cons d cs ih =>
    obtain ⟨l, ls, hls⟩ := exists_cons_of_ne_nil (splitOn_ne_nil c cs)
    rw [hls, forall_mem_cons] at ih
    rw [splitOn_cons_eq_if_modifyHead, hls]
    by_cases hd : d = c
    · simpa [hd] using ih
    · simpa [hd, Ne.symm hd] using ih

theorem Files.mem_insertName {name n : String} {l : List String} (h : n ∈ insertName name l) :
    n = name ∨ n ∈ l := by
  fun_induction insertName name l <;> grind

/-- What a directory contains has a name, without slashes. -/
theorem Files.name_of_mem_list {fs : Files} {path : String} {names : List String}
    (h : fs.list path = .ok names) : ∀ n ∈ names, n ≠ "" ∧ '/' ∉ n.toList := by
  have hsteps : ∀ e ∈ fs.split, ∀ n ∈ e.1, n ≠ "" ∧ '/' ∉ n.toList := by
    intro e he n hn
    obtain ⟨entry, -, rfl⟩ := mem_map.mp he
    obtain ⟨hpart, hstep⟩ := mem_filter.mp hn
    obtain ⟨l, hl, rfl⟩ := mem_map.mp hpart
    exact ⟨by simp_all, by simpa using not_mem_of_mem_splitOn l hl⟩
  unfold list at h
  split at h
  · cases h
  · cases h
  · cases h
    exact forall_mem_nil _
  · cases h
    refine foldlRecOn (motive := fun names => ∀ n ∈ names, n ≠ "" ∧ '/' ∉ n.toList) _ _
      (forall_mem_nil _) ?_
    intro names hnames e he n hn
    split at hn
    · split at hn
      · rename_i name rest hdrop
        rcases mem_insertName hn with rfl | hn
        · exact hsteps e he n (mem_of_mem_drop (by rw [hdrop]; exact .head _))
        · exact hnames n hn
      · exact hnames n hn
    · exact hnames n hn

namespace Shell

section Load

open Text (isPlain Escapable escaped escaped_append escaped_of_not_mem)

variable {σ : Session} {names : List String} {b r s : String}

theorem toList_escapeBlanks (s : String) : (escapeBlanks s).toList = escaped s.toList :=
  String.toList_ofList

theorem words?_load (hs : Escapable s.toList) (t : String) :
    Text.words? ("load " ++ escapeBlanks s ++ t) =
    (Text.wordsFrom .inWord ⟨s.toList.reverse, false⟩ t.toList).map ("load" :: ·) := by
  have hinside : ∀ cs, Text.wordsFrom .between Text.Word.start cs =
      Text.wordsFrom .inWord ⟨[], false⟩ cs := fun cs => by
    cases cs <;> rfl
  rw [List.reverse, ← Text.wordsFrom_escaped hs, ← hinside, Text.words?, String.append_assoc,
    String.toList_append, String.toList_append, toList_escapeBlanks]
  rfl

theorem words?_load_concat {e : Char} (hs : Escapable s.toList) (he : isPlain e = true) :
    Text.words? ("load " ++ escapeBlanks s ++ String.ofList [e]) =
      some ["load", s ++ String.ofList [e]] := by
  rw [words?_load hs, String.toList_ofList, Text.wordsFrom_plain he]
  simp [Text.wordsFrom, Text.Word.finish]

theorem words?_load_space (hs : Escapable s.toList) (hne : s ≠ "") :
    Text.words? ("load " ++ escapeBlanks s ++ " ") = some ["load", s] := by
  rw [words?_load hs]
  simp [Text.wordsFrom, Text.isWordBreak, Text.Word.finish, Text.Word.start, hne]

/-- What is offered for a name in the working directory. -/
theorem candidates_load (hnames : σ.files.list "." = .ok names) (hb : '/' ∉ b.toList) (w : String) :
    candidates σ ["load", w] b =
      .ok (limited ((names.filter (Text.startsWith · b)).map (fileCandidate σ.files "." b))) := by
  have hload : (command? "load").map Command.completes = some .files := by decide
  have hall : ∀ c ∈ b.toList.reverse, (decide (c ≠ '/')) = true := by
    intro c hc
    simpa using fun hslash : c = '/' => hb (by simpa [hslash] using hc)
  have hbase : Path.baseName b = b := by
    rw [Path.baseName, takeWhile_eq_self_iff.mpr hall, reverse_reverse, String.ofList_toList]
  have hdir : Path.dirName b = "" := by
    rw [Path.dirName, dropWhile_eq_nil_iff.mpr hall]
    rfl
  simp only [candidates, hload, length_singleton, if_pos, completeFile, hbase, hdir, hnames]

/-- The line with the beginning of a name is taken for this beginning, and what is missing of the
name is offered. -/
def Offers (σ : Session) (b name : String) : Prop :=
  ∃ c σ' lines, complete ("load " ++ escapeBlanks b).toList σ = .ok c σ' ∧ c.token = some b.toList ∧
    c.candidates = some lines ∧ (fileCandidate σ.files "." b name).toList ∈ lines

theorem offers_iff (hnames : σ.files.list "." = .ok names) (hname : b ++ r ∈ names)
    (hb : Escapable b.toList) :
    Offers σ b (b ++ r) ↔ (names.filter (Text.startsWith · b)).length < candidateLimit := by
  have hslash : '/' ∉ b.toList := fun hin =>
    (Files.name_of_mem_list hnames _ hname).2 (by simp [hin])
  have hwords : Text.words? (String.ofList (("load " ++ escapeBlanks b).toList ++ ['_'])) =
      some ["load", b ++ "_"] := by
    rw [String.ofList_append, String.ofList_toList, words?_load_concat hb (by decide)]
  have hstart : unfinished ["load", b ++ "_"] = b := by simp [unfinished]
  have hfound : candidates σ ["load", b ++ "_"] (unfinished ["load", b ++ "_"]) =
      .ok (limited ((names.filter (Text.startsWith · b)).map (fileCandidate σ.files "." b))) := by
    rw [hstart, candidates_load hnames hslash]
  rw [limited, length_map] at hfound
  constructor
  · rintro ⟨c, σ', lines, hc, -, hlines, -⟩
    obtain ⟨words, found, hwords', hfound', -⟩ := found_of_complete hc hlines
    obtain rfl := Option.some.inj (hwords.symm.trans hwords')
    by_contra hmany
    rw [if_pos (by simpa using hmany), hfound'] at hfound
    cases hfound
  · intro hfew
    rw [if_neg (by simpa using hfew)] at hfound
    obtain ⟨c, hc, hanswered⟩ := complete_of_found hwords hfound
    refine ⟨c, σ, _, hc, by rw [hanswered.token, hstart], hanswered.candidates, ?_⟩
    refine mem_map_of_mem (mem_map_of_mem ?_)
    simp [hname, Text.startsWith]

/-- If the beginning of a name has no spaces, then the candidate is cut where it ends. -/
theorem rest_escapeBlanks (hb : ' ' ∉ b.toList) (t : String) :
    escapeBlanks b ++ rest b (escapeBlanks (b ++ r)) t = escapeBlanks (b ++ r) ++ t := by
  rw [← String.toList_inj]
  simp [rest, Text.dropChars, toList_escapeBlanks, escaped_append, escaped_of_not_mem hb,
    ← String.length_toList]

end Load

/-- A name of the working directory stands for a directory. -/
def isFolder (fs : Files) (name : String) : Bool := fs.lookup (Path.join "." name) = some .directory

/-- For every working directory and every name in it, of which a beginning without spaces has been
typed: what is missing is offered exactly if there are not too many candidates. If nothing in the
name but spaces needs an escape, the typed text and the candidate are split into the command and the
name, with a slash behind the name of a directory. -/
theorem completed_name_read (σ : Session) (names : List String) (b r : String)
    (hnames : σ.files.list "." = .ok names) (hname : b ++ r ∈ names) (hb : ' ' ∉ b.toList)
    (hescapable : Text.Escapable (b ++ r).toList) :
    (Offers σ b (b ++ r) ↔ (names.filter (Text.startsWith · b)).length < candidateLimit) ∧
      Text.words? ("load " ++ escapeBlanks b ++ fileCandidate σ.files "." b (b ++ r)) =
        some ["load", b ++ r ++ if isFolder σ.files (b ++ r) then "/" else ""] := by
  refine ⟨offers_iff hnames hname fun c hc => hescapable c (by simp [hc]), ?_⟩
  rw [fileCandidate, String.append_assoc, rest_escapeBlanks hb, ← String.append_assoc]
  cases hfolder : isFolder σ.files (b ++ r) with
  | true =>
    rw [if_pos (of_decide_eq_true hfolder)]
    exact words?_load_concat hescapable (e := '/') rfl
  | false =>
    rw [if_neg (of_decide_eq_false hfolder),
      words?_load_space hescapable (Files.name_of_mem_list hnames _ hname).1]
    simp

/-- A directory with one file, whose name has a space in it. -/
def spacedName : Session := Session.start Options.standard ⟨[("a b", .file (.ofText ""))]⟩

/-- With only the first letter typed, the name is completed and read as meant. -/
theorem completed_name_read_letter :
    Offers spacedName "a" ("a" ++ " b") ∧
      Text.words? ("load " ++ escapeBlanks "a" ++
        fileCandidate spacedName.files "." "a" ("a" ++ " b")) = some ["load", "a b"] := by
  have hnames : spacedName.files.list "." = .ok ["a b"] := by decide +kernel
  have hfile : isFolder spacedName.files ("a" ++ " b") = false := by decide +kernel
  obtain ⟨hoffers, hread⟩ :=
    completed_name_read spacedName ["a b"] "a" " b" hnames (by decide) (by decide) (by decide)
  rw [hfile] at hread
  exact ⟨hoffers.mpr (by decide), hread⟩

/-- With the space typed too, the candidate has it once more, without its escape. -/
theorem spaced_name_misread :
    Offers spacedName "a " "a b" ∧ fileCandidate spacedName.files "." "a " "a b" = " b " ∧
      Text.words? ("load a\\ " ++ " b ") = some ["load", "a ", "b"] := by
  have hnames : spacedName.files.list "." = .ok ["a b"] := by decide +kernel
  have hoffers := @offers_iff spacedName ["a b"] "a " "b" hnames (by decide) (by decide)
  exact ⟨hoffers.mpr (by decide), by decide +kernel, by decide⟩

end Shell

end Decompiler
