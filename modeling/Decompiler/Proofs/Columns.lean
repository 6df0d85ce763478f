import Decompiler.Print.Tree
/-!
# The address column

What is written for an instruction has its address in front, with a colon: the address column of a
line. Only blanks, the sign of a comment and the conditions of a one-line `if` stand before it
(`HasColumn`). Listings are read as steps that take what is written from one state to another
(`Listing.Takes`): a listing shows an address if it leads from the beginning of a line to where the
address is in the column of some line (`Listing.Shows`). Instructions and remarks show their
addresses on every architecture, unless the address is among those that are left out.
-/

namespace Decompiler

open List

variable {written margin pieces : List Piece}

/-! ## Columns and lines -/

/-- The address in the column that a piece is, if it is one. -/
def Piece.column? : Piece → Option Int
  | .address _ addr true => some addr
  | .remark addr => some addr
  | .address _ _ false | .text .. | .label .. | .indent _ | .newline | .opening | .closing => none

/-- What a line may begin with: the conditions that the rest of it depends on. -/
inductive Conditions : List Piece → Prop
  | none : Conditions []
  | more {head cond : List Piece} (depth : Int) : Conditions head → .newline ∉ cond →
    Conditions (head ++ [.indent depth, .text (.role .keyword) "if "] ++ cond ++
      [.text .plain " :  "])

/-- What stands in front of an address: blanks, with the sign of a comment or without. -/
def IsMargin (margin : List Piece) : Prop :=
  ∃ depth, margin = [.indent depth] ∨
    margin = [.indent depth, .text (.role .comment) "# ", .indent 0]

/-- The text of some pieces. -/
def Piece.renderAll (color : Bool) (pieces : List Piece) : String :=
  String.join (pieces.map (render color))

/-- A line has the address in its column: in hexadecimal with a colon, behind a number sign if it is
that of a remark, and with nothing before it but conditions and a margin. -/
def HasColumn (color : Bool) (addr : Int) (line : String) : Prop :=
  ∃ head margin : List Piece, Conditions head ∧ IsMargin margin ∧
    ∃ (ink : Ink) (after : String), ∃ front ∈ ["", "# "],
      line = Piece.renderAll color (head ++ margin) ++
        ink.paint color (front ++ Text.hex addr ++ ": ") ++ after

theorem Piece.render_of_column? {p : Piece} {addr : Int} (h : p.column? = some addr)
    (color : Bool) : ∃ ink : Ink, ∃ front ∈ ["", "# "],
      p.render color = ink.paint color (front ++ Text.hex addr ++ ": ") := by
  cases p with
  | address ink a colon =>
    cases colon with
    | true =>
      obtain rfl : a = addr := Option.some.inj h
      exact ⟨ink, "", .head _, by simp [Piece.render]⟩
    | false => cases h
  | remark a =>
    obtain rfl : a = addr := Option.some.inj h
    exact ⟨.role .comment, "# ", by simp, rfl⟩
  | text | label | indent | newline | opening | closing => cases h

theorem Conditions.newline_not_mem {head : List Piece} (h : Conditions head) : .newline ∉ head := by
  induction h with
  | none => exact not_mem_nil
  | more depth _ hcond ih => simp [ih, hcond]

theorem IsMargin.newline_not_mem (h : IsMargin margin) : .newline ∉ margin := by
  obtain ⟨depth, rfl | rfl⟩ := h <;> simp

/-! ## What is written so far -/

/-- The line under way has nothing in it but conditions. -/
def LineStart (written : List Piece) : Prop :=
  ∃ above head, written = above ++ head ∧ (above = [] ∨ ∃ l, above = l ++ [.newline]) ∧
    Conditions head

/-- These pieces were written after the beginning of a line. -/
def Begun (pieces written : List Piece) : Prop :=
  ∃ before, LineStart before ∧ written = before ++ pieces

/-- The address is in the column of some line. -/
def Shown (addr : Int) (written : List Piece) : Prop :=
  ∃ margin p after, IsMargin margin ∧ p.column? = some addr ∧ Begun (margin ++ p :: after) written

/-- Nothing is known of what was written. -/
def Anything (_ : List Piece) : Prop := True

theorem lineStart_newline (written : List Piece) : LineStart (written ++ [.newline]) :=
  ⟨_, [], by simp, .inr ⟨written, rfl⟩, .none⟩

theorem Begun.append (h : Begun pieces written) (more : List Piece) :
    Begun (pieces ++ more) (written ++ more) := by
  obtain ⟨before, hstart, rfl⟩ := h
  exact ⟨before, hstart, append_assoc ..⟩

theorem Shown.append {addr : Int} (h : Shown addr written)
    (more : List Piece) : Shown addr (written ++ more) := by
  obtain ⟨margin, p, after, hmargin, hp, hbegun⟩ := h
  exact ⟨margin, p, after ++ more, hmargin, hp, by simpa using hbegun.append more⟩

/-- A condition on the line of what depends on it. -/
theorem Begun.lineStart {cond : List Piece} {depth : Int} (hcond : .newline ∉ cond)
    (h : Begun ([.indent depth, .text (.role .keyword) "if "] ++ cond ++ [.text .plain " :  "])
      written) : LineStart written := by
  obtain ⟨_, ⟨above, head, rfl, habove, hhead⟩, rfl⟩ := h
  exact ⟨above, _, by simp, habove, hhead.more depth hcond⟩

namespace Listing

variable {α β : Type}

/-- The texts of the lines of a listing. -/
def lines (color : Bool) (l : Listing α) : List String :=
  (l.pieces.splitOnP (· == .newline)).map (Piece.renderAll color)

/-- The text of a listing is its lines, one under the other. -/
theorem render_eq_lines (color : Bool) (l : Listing α) :
    l.render color = "\n".intercalate (l.lines color) := by
  unfold render lines Piece.renderAll
  induction l.pieces with
  | nil => simp
  | cons p rest ih =>
    rw [map_cons, String.join_cons, ih, splitOnP_cons_eq_if_modifyHead]
    obtain ⟨line, more, hlines⟩ :=
      exists_cons_of_ne_nil (splitOnP_ne_nil (· == Piece.newline) rest)
    by_cases hp : p = .newline
    · subst hp
      simp [hlines, Piece.render]
    · simp [hp, hlines]

/-- What has no line end in it but one in front is the beginning of a line. -/
theorem exists_line_of_append {above mid : List Piece}
    (habove : above = [] ∨ ∃ l, above = l ++ [.newline]) (hmid : .newline ∉ mid)
    (after : List Piece) :
    ∃ tail, mid ++ tail ∈ (above ++ mid ++ after).splitOnP (· == .newline) := by
  have hmore : ∃ tail, mid ++ tail ∈ (mid ++ after).splitOnP (· == .newline) := by
    by_cases hafter : Piece.newline ∈ after
    · obtain ⟨tail, more, rfl, htail⟩ := eq_append_cons_of_mem hafter
      refine ⟨tail, ?_⟩
      rw [← append_assoc, splitOnP_append_cons_of_forall_mem (by grind) _ rfl]
      exact .head _
    · refine ⟨after, ?_⟩
      rw [splitOnP_eq_singleton (by grind)]
      exact .head _
  obtain ⟨tail, htail⟩ := hmore
  refine ⟨tail, ?_⟩
  obtain rfl | ⟨l, rfl⟩ := habove
  · exact htail
  · rw [append_assoc, append_assoc, singleton_append,
      splitOnP_append_cons _ _ rfl]
    exact mem_append_right _ htail

variable {l : Listing α} {f : α → Listing β} {P Q R : List Piece → Prop} {addr : Int}

/-- If it ends well, a listing leads from what was written before to what is written then. -/
def Takes (P Q : List Piece → Prop) (l : Listing α) : Prop :=
  ∀ a, l.result = .ok a → ∀ written, P written → Q (written ++ l.pieces)

/-- A listing has the address in the column of some line, if it begins at a line and ends well. -/
abbrev Shows (l : Listing α) (addr : Int) : Prop := l.Takes LineStart (Shown addr)

theorem Shows.exists_column (h : l.Shows addr) {a : α} (ha : l.result = .ok a) :
    ∃ p ∈ l.pieces, p.column? = some addr := by
  obtain ⟨margin, p, after, -, hp, _, -, hpieces⟩ := h a ha [] ⟨[], [], rfl, .inl rfl, .none⟩
  rw [nil_append] at hpieces
  exact ⟨p, by simp [hpieces], hp⟩

theorem Shows.exists_line (h : l.Shows addr) {a : α} (ha : l.result = .ok a) (color : Bool) :
    ∃ line ∈ l.lines color, HasColumn color addr line := by
  obtain ⟨margin, p, after, hmargin, hp, _, ⟨above, head, rfl, habove, hhead⟩, hpieces⟩ :=
    h a ha [] ⟨[], [], rfl, .inl rfl, .none⟩
  have hp' : p ≠ .newline := by
    rintro rfl
    cases hp
  have hmid : .newline ∉ head ++ margin ++ [p] := by
    simp [hhead.newline_not_mem, hmargin.newline_not_mem, hp'.symm]
  obtain ⟨tail, htail⟩ := exists_line_of_append habove hmid after
  have hline : head ++ margin ++ [p] ++ tail ∈ l.pieces.splitOnP (· == .newline) := by
    rw [nil_append] at hpieces
    rw [hpieces]
    simpa using htail
  obtain ⟨ink, front, hfront, hrender⟩ := Piece.render_of_column? hp color
  refine ⟨_, mem_map_of_mem hline, head, margin, hhead, hmargin, ink,
    Piece.renderAll color tail, front, hfront, ?_⟩
  rw [← hrender]
  simp [Piece.renderAll, String.append_assoc]

/-! ## Listings in a row -/

/-- Two listings in a row end well if both do. -/
theorem bind_eq_ok {b : β} (h : (l >>= f).result = .ok b) :
    ∃ a, l.result = .ok a ∧ (f a).result = .ok b ∧
      (l >>= f).pieces = l.pieces ++ (f a).pieces := by
  simp only [bind, andThen] at h ⊢
  cases hl : l.result with
  | error e =>
    rw [hl] at h
    cases h
  | ok a =>
    rw [hl] at h
    exact ⟨a, rfl, h, rfl⟩

theorem Takes.bind (hl : l.Takes P Q) (hf : ∀ a, l.result = .ok a → (f a).Takes Q R) :
    (l >>= f).Takes P R := by
  intro b hb written hwritten
  obtain ⟨a, ha, hfa, hpieces⟩ := bind_eq_ok hb
  rw [hpieces, ← append_assoc]
  exact hf a ha b hfa _ (hl a ha _ hwritten)

/-- What comes first does not matter. -/
theorem Takes.after (l : Listing α) (hf : ∀ a, l.result = .ok a → (f a).Takes Anything R) :
    (l >>= f).Takes P R :=
  Takes.bind (fun _ _ _ _ => trivial) hf

/-- What is shown stays shown. -/
theorem Takes.left (h : l.Takes P (Shown addr)) (f : α → Listing β) :
    (l >>= f).Takes P (Shown addr) :=
  h.bind fun _ _ _ _ _ hshown => hshown.append _

theorem takes_ask (answer : Except Fault α) : (ask answer).Takes P P :=
  fun _ _ written h => by simpa [ask] using h

theorem takes_done (a : α) : (done a).Takes P P := takes_ask (.ok a)

theorem takes_begun (l : Listing α) : l.Takes (Begun pieces) (Begun (pieces ++ l.pieces)) :=
  fun _ _ _ h => h.append l.pieces

theorem takes_newline : newline.Takes P LineStart := fun _ _ written _ => lineStart_newline written

theorem takes_indent (depth : Int) : (indent depth).Takes LineStart (Begun [.indent depth]) :=
  fun _ _ written h => ⟨written, h, rfl⟩

theorem takes_column {p : Piece} (h : p.column? = some addr)
    (hmargin : IsMargin margin) : (put p).Takes (Begun margin) (Shown addr) :=
  fun _ _ _ hw => ⟨margin, p, [], hmargin, h, hw.append [p]⟩

theorem takes_each {f : α → Listing Unit} (h : ∀ x, (f x).Takes P P) (l : List α) :
    (each f l).Takes P P := by
  induction l with
  | nil => exact takes_done ()
  | cons x rest ih => exact Takes.bind (h x) fun _ _ => ih

theorem shows_each {f : α → Listing Unit} (hf : ∀ x, (f x).Takes LineStart LineStart) {x : α}
    (h : (f x).Shows addr) : ∀ {l : List α}, x ∈ l → (each f l).Shows addr := by
  intro l
  induction l with
  | nil => intro hx; cases hx
  | cons y rest ih =>
    intro hx
    rcases mem_cons.mp hx with rfl | hx
    · exact h.left fun _ => each f rest
    · exact Takes.bind (hf y) fun _ _ => ih hx

end Listing

namespace Scene

open Listing

variable (s : Scene) (addr depth : Int)

theorem takes_address : (s.address addr depth true).Shows addr :=
  (takes_indent depth).bind fun _ _ => takes_column rfl ⟨depth, .inl rfl⟩

/-- A label is followed by a line end; without a label the line is as it was. -/
theorem takes_label {β : Type} {f : Bool → Listing β} {Q : List Piece → Prop}
    (htrue : (f true).Takes Anything Q) (hfalse : (f false).Takes LineStart Q) :
    (s.label addr depth true >>= f).Takes LineStart Q := by
  unfold label
  split
  · exact (takes_done false).bind fun b hb => by cases hb; exact hfalse
  · exact Takes.after _ fun b hb => by cases hb; exact htrue

theorem takes_labelAndAddress : (s.labelAndAddress addr depth true).Shows addr := by
  refine s.takes_label addr depth (takes_newline.bind fun _ _ => ?_) (s.takes_address addr depth)
  exact (takes_indent depth).bind fun _ _ => takes_column rfl ⟨depth, .inl rfl⟩

/-- The address of a remark, behind the sign of a comment. -/
theorem takes_remarked (rest : Listing Unit) :
    (do indent depth; ink .comment "# "; s.address addr 0 true; rest).Shows addr := by
  refine (takes_indent depth).bind fun _ _ => (takes_begun _).bind fun _ _ => Takes.left ?_ _
  exact (takes_begun _).bind fun _ _ => takes_column rfl ⟨depth, .inr rfl⟩

theorem takes_symbolLine : (s.symbolLine addr depth).Takes LineStart LineStart := by
  unfold symbolLine
  split
  · rename_i hshows
    refine Takes.after _ fun _ _ => ?_
    split
    · exact Takes.after _ fun _ _ => takes_newline
    · rename_i hnone
      simp [showsSymbol, Symbols.isNamed, OrdMap.contains, hnone] at hshows
  · exact takes_done ()

end Scene

/-! ## Instructions and remarks -/

section Insns

open Listing

variable {s : Scene} {i : Insn} (depth : Int)

/-- Every instruction ends its line. -/
theorem Scene.takes_insn : (s.insn i depth).Takes LineStart LineStart := by
  unfold Scene.insn X86.insn Arm.insn Mips.insn
  repeat' first
    | exact takes_newline | exact takes_done () | refine Takes.after _ fun _ _ => ?_ | split

theorem Mips.takes_remark : (Mips.remark s i depth).Takes LineStart LineStart := by
  unfold Mips.remark
  split
  · repeat' first | exact takes_newline | refine Takes.after _ fun _ _ => ?_
  · exact takes_done ()

theorem Scene.takes_remark : (s.remark i depth).Takes LineStart LineStart := by
  unfold Scene.remark X86.remark Arm.remark
  repeat' first
    | exact takes_newline | exact takes_done () | exact Mips.takes_remark depth
    | refine Takes.after _ fun _ _ => ?_ | split

theorem X86.body_shows : (X86.body s i depth).Shows i.addr := by
  unfold X86.body
  cases i.repetition with
  | none => exact (s.takes_labelAndAddress i.addr depth).left _
  | some r =>
    have hopen : (X86.openRepetition depth).Takes LineStart LineStart := by
      unfold X86.openRepetition
      repeat' first | exact takes_newline | refine Takes.after _ fun _ _ => ?_
    exact hopen.bind fun _ _ => (s.takes_labelAndAddress i.addr (depth + 1)).left _

section

variable (h : i.addr ∉ s.marks.fused)
include h

/-- An instruction that is not left out shows its address. -/
theorem Scene.insn_shows : (s.insn i depth).Shows i.addr := by
  have hshown : ¬ s.marks.fused.contains i.addr = true := by simpa using h
  have hsymbol := s.takes_symbolLine i.addr depth
  have haddress := s.takes_labelAndAddress i.addr depth
  unfold Scene.insn
  cases s.arch with
  | x86 =>
    unfold X86.insn
    rw [if_neg hshown]
    exact hsymbol.bind fun _ _ => (X86.body_shows depth).left _
  | arm =>
    unfold Arm.insn
    rw [if_neg hshown]
    exact hsymbol.bind fun _ _ => haddress.left _
  | mips =>
    unfold Mips.insn
    rw [if_neg hshown]
    exact hsymbol.bind fun _ _ => haddress.left _

end

variable (h : s.options.comments = true)
include h

theorem X86.remark_shows : (X86.remark s i depth).Shows i.addr := by
  unfold X86.remark
  rw [if_pos h]
  refine s.takes_label i.addr depth ?_ (s.takes_remarked i.addr depth _)
  refine takes_newline.bind fun _ _ => (takes_indent depth).bind fun _ _ => ?_
  exact (takes_column rfl ⟨depth, .inl rfl⟩).left _

theorem Arm.remark_shows : (Arm.remark s i depth).Shows i.addr := by
  unfold Arm.remark
  rw [if_pos h]
  exact s.takes_label i.addr depth (takes_newline.bind fun _ _ => s.takes_remarked i.addr depth _)
    ((takes_done ()).bind fun _ _ => s.takes_remarked i.addr depth _)

/-- Remarks look the same on both architectures. -/
theorem Mips.remark_shows : (Mips.remark s i depth).Shows i.addr :=
  Arm.remark_shows depth h

/-- A remark shows the address of its instruction, if comments are written. -/
theorem Scene.remark_shows : (s.remark i depth).Shows i.addr := by
  unfold Scene.remark
  cases s.arch with
  | x86 => exact X86.remark_shows depth h
  | arm => exact Arm.remark_shows depth h
  | mips => exact Mips.remark_shows depth h

end Insns

end Decompiler
