import Decompiler.Text.Words
import Mathlib.Tactic
/-!
# Command lines that can be split

A line can be split into words exactly if every quotation in it is closed and no backslash stands at
its end (`words?_eq_none_iff`). It has no words at all exactly if there is nothing in it but blanks
(`words?_eq_nil_iff`).

The splitter is an automaton over the characters. `Closes` says for each of its states which rests
of a line are accepted, in terms of the grammar `WellQuoted` of whole lines.
-/

namespace Decompiler.Text

open List

/-! ## Quotations -/

/-- What may stand between two quotation marks: anything but the mark. Between double ones a
backslash takes the next character with it. -/
inductive Quotation (mark : Char) : List Char → Prop
  | nil : Quotation mark []
  | plain {c : Char} {rest : List Char} (hmark : c ≠ mark) (hescape : ¬ (c = '\\' ∧ mark = '"')) :
      Quotation mark rest → Quotation mark (c :: rest)
  | escaped {c : Char} {rest : List Char} (hdouble : mark = '"') :
    Quotation mark rest → Quotation mark ('\\' :: c :: rest)

/-- The two quotation marks. -/
def isQuoteMark (c : Char) : Bool := c = '\'' || c = '"'

/-- A line in which every quotation is closed and every backslash has a character after it. -/
inductive WellQuoted : List Char → Prop
  | nil : WellQuoted []
  | plain {c : Char} {rest : List Char} (hescape : c ≠ '\\') (hquote : isQuoteMark c = false) :
      WellQuoted rest → WellQuoted (c :: rest)
  | escaped {c : Char} {rest : List Char} : WellQuoted rest → WellQuoted ('\\' :: c :: rest)
  | quoted {mark : Char} {body rest : List Char} (hquote : isQuoteMark mark = true)
      (hbody : Quotation mark body) : WellQuoted rest → WellQuoted (mark :: (body ++ mark :: rest))

/-- The rest of a line closes a quotation and is well quoted after it. -/
def ClosesQuotation (mark : Char) (cs : List Char) : Prop :=
  ∃ body rest, cs = body ++ mark :: rest ∧ Quotation mark body ∧ WellQuoted rest

/-- The rests of a line that the splitter accepts where it stands. -/
def Closes : WordState → List Char → Prop
  | .between, cs => WellQuoted cs
  | .inWord, cs => WellQuoted cs
  | .quoted mark, cs => ClosesQuotation mark cs
  | .escaped false, cs => ∃ c rest, cs = c :: rest ∧ WellQuoted rest
  | .escaped true, cs => ∃ c rest, cs = c :: rest ∧ ClosesQuotation '"' rest

section Steps

variable {c mark : Char} {cs : List Char}

theorem wellQuoted_plain_iff (hescape : c ≠ '\\') (hquote : isQuoteMark c = false) :
    WellQuoted (c :: cs) ↔ WellQuoted cs := by
  constructor
  · intro h
    cases h with
    | plain _ _ hrest => exact hrest
    | escaped => exact absurd rfl hescape
    | quoted hmark => simp [hmark] at hquote
  · exact WellQuoted.plain hescape hquote

theorem wellQuoted_backslash_iff : WellQuoted ('\\' :: cs) ↔ Closes (.escaped false) cs := by
  constructor
  · intro h
    cases h with
    | plain hescape => exact absurd rfl hescape
    | escaped hrest => exact ⟨_, _, rfl, hrest⟩
    | quoted hmark => cases hmark
  · rintro ⟨c, rest, rfl, hrest⟩
    exact hrest.escaped

theorem wellQuoted_quote_iff (hquote : isQuoteMark c = true) :
    WellQuoted (c :: cs) ↔ ClosesQuotation c cs := by
  constructor
  · intro h
    cases h with
    | plain _ hplain => simp [hquote] at hplain
    | escaped => cases hquote
    | quoted _ hbody hrest => exact ⟨_, _, rfl, hbody, hrest⟩
  · rintro ⟨body, rest, rfl, hbody, hrest⟩
    exact hrest.quoted hquote hbody

theorem closesQuotation_mark_iff : ClosesQuotation mark (mark :: cs) ↔ WellQuoted cs := by
  constructor
  · rintro ⟨body, rest, heq, hbody, hrest⟩
    cases hbody with
    | nil =>
      cases heq
      exact hrest
    | plain hmark => exact absurd (cons.inj heq).1.symm hmark
    | escaped hdouble =>
      rw [hdouble] at heq
      cases heq
  · intro h
    exact ⟨[], cs, rfl, .nil, h⟩

theorem closesQuotation_escape_iff :
    ClosesQuotation '"' ('\\' :: cs) ↔ Closes (.escaped true) cs := by
  constructor
  · rintro ⟨body, rest, heq, hbody, hrest⟩
    cases hbody with
    | nil => cases heq
    | plain hmark hescape =>
      cases heq
      exact absurd ⟨rfl, rfl⟩ hescape
    | escaped hdouble htail =>
      cases heq
      exact ⟨_, _, rfl, _, _, rfl, htail, hrest⟩
  · rintro ⟨c, tail, rfl, body, rest, rfl, hbody, hrest⟩
    exact ⟨'\\' :: c :: body, rest, rfl, hbody.escaped rfl, hrest⟩

theorem closesQuotation_plain_iff (hmark : c ≠ mark) (hescape : ¬ (c = '\\' ∧ mark = '"')) :
    ClosesQuotation mark (c :: cs) ↔ ClosesQuotation mark cs := by
  constructor
  · rintro ⟨body, rest, heq, hbody, hrest⟩
    cases hbody with
    | nil => exact absurd (cons.inj heq).1 hmark
    | plain _ _ htail =>
      cases heq
      exact ⟨_, _, rfl, htail, hrest⟩
    | escaped hdouble => exact absurd ⟨(cons.inj heq).1, hdouble⟩ hescape
  · rintro ⟨body, rest, rfl, hbody, hrest⟩
    exact ⟨c :: body, rest, rfl, hbody.plain hmark hescape, hrest⟩

end Steps

/-- Between words and inside one the splitter goes on in the same ways, so that one equation serves
both. -/
theorem wordsFrom_cons {st : WordState} (hst : st = .between ∨ st = .inWord) (w : Word) (c : Char)
    (cs : List Char) :
    wordsFrom st w (c :: cs) =
      if isWordBreak c then (wordsFrom .between Word.start cs).map w.finish
      else if c = '\\' then wordsFrom (.escaped false) w cs
      else if isQuoteMark c then wordsFrom (.quoted c) { w with wasQuoted := true } cs
      else wordsFrom .inWord (w.push c) cs := by
  rcases hst with rfl | rfl <;> rfl

theorem plain_of_isWordBreak {c : Char} (h : isWordBreak c = true) :
    c ≠ '\\' ∧ isQuoteMark c = false := by
  constructor
  · rintro rfl
    cases h
  · simp only [isWordBreak, Bool.or_eq_true, decide_eq_true_eq] at h
    rcases h with ((rfl | rfl) | rfl) | rfl <;> rfl

/-- The splitter accepts the rests that close what is open. The induction is over the characters:
each step of the automaton takes one character off the grammar. -/
theorem wordsFrom_isSome_iff (cs : List Char) :
    ∀ (st : WordState) (w : Word), (wordsFrom st w cs).isSome ↔ Closes st cs := by
  induction cs with
  | nil =>
    intro st w
    cases st with
    | between | inWord => exact iff_of_true rfl .nil
    | quoted mark =>
      refine iff_of_false Bool.false_ne_true ?_
      rintro ⟨body, rest, heq, -⟩
      simp at heq
    | escaped inQuotes => cases inQuotes <;> simp [wordsFrom, Closes]
  | cons c cs ih =>
    intro st w
    -- Outside of quotations it makes no difference for what comes whether a word has begun.
    have hword : ∀ st, st = .between ∨ st = .inWord →
        ((wordsFrom st w (c :: cs)).isSome ↔ WellQuoted (c :: cs)) := by
      intro st hst
      rw [wordsFrom_cons hst]
      split
      · rename_i hbreak
        obtain ⟨hescape, hquote⟩ := plain_of_isWordBreak hbreak
        rw [Option.isSome_map, ih, wellQuoted_plain_iff hescape hquote]
        rfl
      · split
        · rename_i hescape
          rw [ih, hescape, wellQuoted_backslash_iff]
        · rename_i hescape
          split
          · rename_i hquote
            rw [ih, wellQuoted_quote_iff hquote]
            rfl
          · rename_i hquote
            rw [ih, wellQuoted_plain_iff hescape (Bool.eq_false_iff.mpr hquote)]
            rfl
    cases st with
    | between => exact hword .between (.inl rfl)
    | inWord => exact hword .inWord (.inr rfl)
    | quoted mark =>
      show (if c = mark then wordsFrom .inWord w cs
        else if c = '\\' && mark = '"' then wordsFrom (.escaped true) w cs
        else wordsFrom (.quoted mark) (w.push c) cs).isSome ↔ ClosesQuotation mark (c :: cs)
      split
      · rename_i hmark
        rw [ih, hmark, closesQuotation_mark_iff]
        rfl
      · rename_i hmark
        split
        · rename_i hescape
          obtain ⟨rfl, rfl⟩ : c = '\\' ∧ mark = '"' := by simpa using hescape
          rw [ih, closesQuotation_escape_iff]
        · rename_i hescape
          rw [ih, closesQuotation_plain_iff hmark (by simpa using hescape)]
          rfl
    | escaped inQuotes =>
      cases inQuotes with
      | false =>
        show (wordsFrom .inWord (w.push c) cs).isSome ↔ ∃ c' rest, c :: cs = c' :: rest ∧
          WellQuoted rest
        rw [ih]
        simp [Closes]
      | true =>
        -- Whether the backslash is kept in the word or not, the quotation goes on.
        show (if c = '\\' || c = '"' then wordsFrom (.quoted '"') (w.push c) cs
          else wordsFrom (.quoted '"') ((w.push '\\').push c) cs).isSome ↔
            ∃ c' rest, c :: cs = c' :: rest ∧ ClosesQuotation '"' rest
        split
        · rw [ih]
          simp [Closes]
        · rw [ih]
          simp [Closes]

/-- A line cannot be split exactly if its quoting is not closed. -/
theorem words?_eq_none_iff (line : String) : words? line = none ↔ ¬ WellQuoted line.toList := by
  rw [← Option.not_isSome_iff_eq_none]
  exact not_congr (wordsFrom_isSome_iff line.toList .between Word.start)

/-! ## What words are made of -/

/-- A word has begun: it has a character, or a quotation was opened, or a backslash stands in front
of its first character. -/
def Begun (st : WordState) (w : Word) : Prop :=
  w.chars ≠ [] ∨ w.wasQuoted = true ∨ st = .escaped false

/-- The words of the rest of a line, in front of which the word `w` has begun or not: they are made
of `w` and of characters that follow it, in their order, and a word that has begun is not lost. -/
def MadeOf (ws : List String) (begun : Prop) (w : Word) (cs : List Char) : Prop :=
  (begun → ws ≠ []) ∧ ∃ x, (ws.map String.toList).flatten = w.chars.reverse ++ x ∧ x.Sublist cs

/-- The character that the splitter keeps in mind: a backslash between double quotation marks is not
lost. -/
def held (st : WordState) : List Char := if st = .escaped true then ['\\'] else []

theorem Begun.push (st : WordState) (w : Word) (c : Char) : Begun st (w.push c) :=
  .inl (cons_ne_nil c w.chars)

theorem flatten_finish (w : Word) (ws : List String) :
    ((w.finish ws).map String.toList).flatten = w.chars.reverse ++
      (ws.map String.toList).flatten := by
  unfold Word.finish
  split <;> simp_all

theorem Word.finish_ne_nil {w : Word} (h : w.chars ≠ [] ∨ w.wasQuoted = true) (rest : List String) :
    w.finish rest ≠ [] := by
  unfold Word.finish
  rcases h with h | h <;> simp [h]

theorem madeOf_wordsFrom (cs : List Char) :
    ∀ {st : WordState} {w : Word} {ws : List String}, wordsFrom st w cs = some ws →
    MadeOf ws (Begun st w) w (held st ++ cs) := by
  induction cs with
  | nil =>
    intro st w ws h
    cases st with
    | between | inWord =>
      obtain rfl := Option.some.inj h
      exact ⟨fun hbegun => Word.finish_ne_nil (by simpa [Begun] using hbegun) [], [],
        flatten_finish w [], nil_sublist _⟩
    | quoted | escaped => cases h
  | cons c cs ih =>
    -- Within a word a step puts characters `y` into it, from those that it has.
    have hstep : ∀ {st st' : WordState} {w w' : Word} {ws : List String} (y : List Char),
        w'.chars.reverse = w.chars.reverse ++ y → (y ++ held st').Sublist (held st ++ [c]) →
        (Begun st w → Begun st' w') → wordsFrom st' w' cs = some ws →
          MadeOf ws (Begun st w) w (held st ++ c :: cs) := by
      intro st st' w w' ws y hw hy hbegun h
      obtain ⟨hne, x, hx, hsub⟩ := ih h
      refine ⟨fun hst => hne (hbegun hst), y ++ x, by rw [hx, hw, append_assoc], ?_⟩
      rw [append_cons]
      refine List.Sublist.trans ?_ (hy.append_right cs)
      rw [append_assoc]
      exact hsub.append_left y
    intro st w ws h
    have hword : st = .between ∨ st = .inWord → MadeOf ws (Begun st w) w (held st ++ c :: cs) := by
      intro hst
      rw [wordsFrom_cons hst] at h
      split at h
      · obtain ⟨ws', h', rfl⟩ := Option.map_eq_some_iff.mp h
        obtain ⟨-, x, hx, hsub⟩ := ih h'
        refine ⟨fun hbegun => Word.finish_ne_nil ?_ ws', x, by rw [flatten_finish, hx]; rfl, ?_⟩
        · rcases hst with rfl | rfl <;> simpa [Begun] using hbegun
        · exact (hsub.trans (sublist_cons_self c cs)).trans (sublist_append_right _ _)
      · split at h
        · exact hstep [] (by simp) (by simp [held]) (fun _ => .inr (.inr rfl)) h
        · split at h
          · exact hstep [] (by simp) (by simp [held]) (fun _ => .inr (.inl rfl)) h
          · exact hstep [c] (by simp [Word.push]) (by simp [held]) (fun _ => Begun.push _ w c) h
    cases st with
    | between => exact hword (.inl rfl)
    | inWord => exact hword (.inr rfl)
    | quoted mark =>
      -- The word of an open quotation has begun for good, also if nothing stands in it.
      have hbegun : ∀ st, Begun (.quoted mark) w → Begun st w :=
        fun st h => h.imp_right fun h => .inl (by simpa using h)
      unfold wordsFrom at h
      dsimp only at h
      split at h
      · exact hstep [] (by simp) (by simp [held]) (hbegun _) h
      · split at h
        · rename_i hback
          exact hstep [] (by simp) (by simp_all [held]) (hbegun _) h
        · exact hstep [c] (by simp [Word.push]) (by simp [held]) (fun _ => Begun.push _ w c) h
    | escaped inQuotes =>
      unfold wordsFrom at h
      dsimp only at h
      split at h
      · rename_i hquotes
        subst hquotes
        split at h
        · exact hstep [c] (by simp [Word.push]) (by simp [held]) (fun _ => Begun.push _ w c) h
        · exact hstep ['\\', c] (by simp [Word.push]) (by simp [held]) (fun _ => Begun.push _ _ c) h
      · exact hstep [c] (by simp [Word.push]) (by simp [held]) (fun _ => Begun.push _ w c) h

/-- A line has no words exactly if there are only blanks in it. -/
theorem words?_eq_nil_iff (line : String) :
    words? line = some [] ↔ ∀ c ∈ line.toList, isWordBreak c = true := by
  unfold words?
  induction line.toList with
  | nil => simp [wordsFrom, Word.finish, Word.start]
  | cons c cs ih =>
    rw [wordsFrom_cons (.inl rfl), forall_mem_cons, ← ih]
    cases hbreak : isWordBreak c with
    | true =>
      have hfinish : Word.start.finish = id := rfl
      simp [hfinish]
    | false =>
      refine iff_of_false ?_ (by simp)
      rw [if_neg Bool.false_ne_true]
      intro h
      split at h
      · exact (madeOf_wordsFrom cs h).1 (.inr (.inr rfl)) rfl
      · split at h
        · exact (madeOf_wordsFrom cs h).1 (.inr (.inl rfl)) rfl
        · exact (madeOf_wordsFrom cs h).1 (Begun.push _ _ c) rfl

end Decompiler.Text
