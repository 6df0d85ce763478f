import Decompiler.Idiom.Syscall
import Decompiler.Proofs.Numerals
import Decompiler.Proofs.OrdMap
import Decompiler.Proofs.RegisterTransfers
/-!
# Notes on system calls

A note on a system call says what the registers hold at the call. It is right if the call that it
names has the number that is in `eax`, and if every argument that it gives as a number is what its
register holds (`Right`).

The pass goes by the last instruction that writes a register under one of its names.
`note_right_iff` says what it writes, and that this is right whatever the registers held before the
block exactly if the trials of `X86.Registers.probes` say so. That is the case if every number that
is shown has been put into the whole of its register and no part of the register is written
afterwards. It is not the case in general: the constant may go into a part of the register only, a
part that the pass has no name for may be written later, and what `XOR` leaves is taken to be zero
whatever its operands are.
-/

namespace Decompiler.Syscall

open List X86

/-! ## Reading a note -/

/-- The text of a call. -/
def callText (name : String) (args : List String) : String :=
  name ++ "(" ++ ", ".intercalate args ++ ")"

/-- The name and the arguments in the text of a call. -/
def readCall? (text : String) : Option (String × List String) :=
  match text.toList.reverse with
  | ')' :: front =>
    match front.dropWhile (· ≠ '(') with
    | '(' :: name =>
      some (String.ofList name.reverse,
        ((front.takeWhile (· ≠ '(')).reverse.splitOn ',').map fun a =>
          String.ofList (a.dropWhile (· = ' ')))
    | _ => none
  | _ => none

/-- The registers that hold the arguments of a call. -/
def callRegisters : List Register := [.ebx, .ecx, .edx, .esi, .edi]

/-- A note is right: the named call has the number in `eax`, and the arguments that are numbers are
in their registers. -/
def Right (m : Registers) (text : String) : Prop :=
  ∀ name args, readCall? text = some (name, args) →
    (∀ entry ∈ table, entry.2.1 = name → m .eax = BitVec.ofNat 32 entry.1) ∧
    ∀ (j : Nat) (r : Register) (v : Int), callRegisters[j]? = some r →
      args[j]? = some (Text.hex v) → m r = BitVec.ofInt 32 v

section Reading

/-- A text has no character that divides a call. -/
def Plain (text : String) : Prop := ∀ c ∈ text.toList, c ≠ '(' ∧ c ≠ ',' ∧ c ≠ ' '

theorem plain_hex (v : Int) : Plain (Text.hex v) := by
  have hdigit : ∀ d < 16, d.digitChar ≠ '(' ∧ d.digitChar ≠ ',' ∧ d.digitChar ≠ ' ' := by decide
  rw [Plain, Text.toList_hex, forall_mem_append, forall_mem_cons, forall_mem_cons]
  refine ⟨?_, by decide, by decide, fun c hc => ?_⟩
  · split <;> simp
  · obtain ⟨d, hd, rfl⟩ := Text.exists_digit_of_mem_toDigits 16 (by decide) _ hc
    exact hdigit d hd

theorem Plain.dropWhile_eq {text : String} (h : Plain text) :
    text.toList.dropWhile (· = ' ') = text.toList := by
  unfold Plain at h
  cases hlist : text.toList with
  | nil => rfl
  | cons c rest =>
    have hc := (h c (by rw [hlist]; exact (.head _))).2.2
    exact dropWhile_cons_of_neg (by simpa using hc)

/-- Arguments are divided by commas, and all but the first have a blank in front. -/
theorem intercalate_blank (a : List Char) (rest : List (List Char)) :
    [',', ' '].intercalate (a :: rest) = [','].intercalate (a :: rest.map (' ' :: ·)) := by
  have hblank : ∀ (b : List Char) (l : List (List Char)),
      ' ' :: [','].intercalate (b :: l) = [','].intercalate ((' ' :: b) :: l) := by
    intro b l
    cases l with
    | nil => simp
    | cons b' l => simp [intercalate_cons_cons]
  induction rest generalizing a with
  | nil => simp
  | cons b rest ih =>
    rw [map_cons, intercalate_cons_cons, intercalate_cons_cons, ih, ← hblank]
    simp

theorem forall_mem_intercalate {P : Char → Prop} {sep : List Char} {l : List (List Char)}
    (hsep : ∀ c ∈ sep, P c) (hl : ∀ a ∈ l, ∀ c ∈ a, P c) : ∀ c ∈ sep.intercalate l, P c := by
  induction l with
  | nil => exact forall_mem_nil _
  | cons a rest ih =>
    obtain ⟨ha, hrest⟩ := forall_mem_cons.mp hl
    cases rest with
    | nil => simpa using ha
    | cons b rest =>
      rw [intercalate_cons_cons, forall_mem_append, forall_mem_append]
      exact ⟨⟨ha, hsep⟩, ih hrest⟩

/-- The text of a call reads back. -/
theorem readCall?_callText (name : String) {args : List String} (hne : args ≠ [])
    (hplain : ∀ a ∈ args, Plain a) : readCall? (callText name args) = some (name, args) := by
  obtain ⟨a, rest, rfl⟩ := exists_cons_of_ne_nil hne
  have hlist : (callText name (a :: rest)).toList.reverse =
      ')' :: ((", ".intercalate (a :: rest)).toList.reverse ++ '(' :: name.toList.reverse) := by
    simp [callText]
  have hinner : (", ".intercalate (a :: rest)).toList =
      [','].intercalate (a.toList :: rest.map fun b => ' ' :: b.toList) := by
    rw [String.toList_intercalate, map_cons]
    refine (intercalate_blank a.toList (rest.map String.toList)).trans ?_
    rw [map_map]
    rfl
  -- No bracket is in the arguments, so the last one is the one behind the name.
  have hbracket : ∀ c ∈ (", ".intercalate (a :: rest)).toList.reverse, decide (c ≠ '(') = true := by
    intro c hc
    rw [mem_reverse, String.toList_intercalate] at hc
    refine decide_eq_true (forall_mem_intercalate (P := (· ≠ '(')) (by simp) (fun b hb => ?_) c hc)
    obtain ⟨arg, harg, rfl⟩ := mem_map.mp hb
    exact fun c hc => (hplain arg harg c hc).1
  -- No comma is in an argument.
  have hsplit : ([','].intercalate (a.toList :: rest.map fun b => ' ' :: b.toList)).splitOn ',' =
      a.toList :: rest.map fun b => ' ' :: b.toList := by
    refine splitOn_intercalate ',' (fun l hl => ?_) (cons_ne_nil _ _)
    rcases mem_cons.mp hl with rfl | hl
    · exact fun hc => (hplain a (.head _) ',' hc).2.1 rfl
    · obtain ⟨b, hb, rfl⟩ := mem_map.mp hl
      rw [mem_cons, not_or]
      exact ⟨by decide, fun hc => (hplain b (mem_cons_of_mem a hb) ',' hc).2.1 rfl⟩
  have hrest : (rest.map fun b => ' ' :: b.toList).map (fun a =>
      String.ofList (a.dropWhile (· = ' '))) = rest := by
    rw [map_map]
    refine (map_congr_left fun b hb => ?_).trans (map_id rest)
    rw [Function.comp_apply, dropWhile_cons_of_pos (by decide),
      (hplain b (mem_cons_of_mem a hb)).dropWhile_eq, String.ofList_toList]
    rfl
  unfold readCall?
  simp only [hlist]
  rw [dropWhile_append_of_pos hbracket, takeWhile_append_of_pos hbracket,
    dropWhile_cons_of_neg (by decide), takeWhile_cons_of_neg (by decide)]
  simp only [append_nil, reverse_reverse, String.ofList_toList, hinner, hsplit, map_cons, hrest,
    (hplain a (.head _)).dropWhile_eq]

end Reading

/-! ## What is shown -/

/-- The value that is taken for what a transfer leaves. -/
def valueOf (t : Transfer) : Option Int :=
  if t.mixes then some 0
  else
    match t.source with
    | .constant k => some k
    | .slot _ => none

/-- The value that is taken for what is in a register with some names: nothing if no instruction
writes it. -/
def lastValue (names : List String) (block : List Insn) : Option (Option Int) :=
  (block.reverse.find? (writes names)).map fun i => (Transfer.ofInsn? i).bind valueOf

/-- How an argument is shown. -/
def shownArgument (block : List Insn) (register : String × List String) : String :=
  match lastValue register.2 block with
  | some (some v) => Text.hex v
  | _ => register.1

/-- The numbers that a note shows, with the registers that they are said to be in. -/
def shownNumbers (block : List Insn) : List (Register × Int) :=
  match lastValue numberRegister block with
  | some (some number) =>
    match table.find? fun entry => (entry.1 : Int) = number with
    | some entry =>
      (.eax, number) :: ((callRegisters.zip argumentRegisters).take entry.2.2).filterMap
        fun argument =>
        ((lastValue argument.2.2 block).join).map fun v => (argument.1, v)
    | none => []
  | _ => []

/-- The instruction that makes a system call. -/
structure IsCall (i : Insn) : Prop where
  opcode : i.opcode = "INT"
  operands : i.operands.map Operand.value = [.immediate 0x80]

/-- A block of instructions that only move and combine what is in registers. -/
def Transfers (block : List Insn) : Prop := ∀ i ∈ block, (Transfer.ofInsn? i).isSome = true

section Pass

variable {block : List Insn} {call : Insn}

theorem constant_eq {i : Insn} {t : Transfer} (h : Transfer.ofInsn? i = some t) :
    constant i = .ok (valueOf t) := by
  obtain ⟨name, n, operand, hoperands, hsource, ⟨hopcode, hmixes⟩ | ⟨hopcode, hmixes⟩⟩ :=
    Transfer.ofInsn?_cases h
  · obtain ⟨target, rest, hlist, -, hrest⟩ := map_eq_cons_iff.mp hoperands
    obtain ⟨source, none, rfl, rfl, hnone⟩ := map_eq_cons_iff.mp hrest
    obtain rfl := map_eq_nil_iff.mp hnone
    have hread : i.operand 1 = .ok source := by rw [Insn.operand, hlist]; rfl
    have hconstant : constant i = .ok (if source.isImmediate then some source.number
        else none) := by
      rw [constant, if_pos hopcode, hread]
      rfl
    rw [hconstant, valueOf, hmixes, Operand.isImmediate, Operand.number]
    cases hkind : source.value with
    | register name number =>
      rw [hkind] at hsource
      obtain ⟨slot, -, hslot⟩ := Option.map_eq_some_iff.mp hsource
      rw [← hslot]
      rfl
    | immediate k =>
      rw [hkind] at hsource
      rw [← Option.some.inj hsource]
      rfl
    | real | tooLarge | memory | other =>
      rw [hkind] at hsource
      cases hsource
  · have hmov : i.opcode ≠ "MOV" := by
      rw [hopcode]
      decide
    rw [constant, if_neg hmov, if_pos hopcode, valueOf, hmixes]
    rfl

theorem Transfers.opcode_ne (h : Transfers block) : ∀ i ∈ block, i.opcode ≠ "INT" := by
  intro i hi
  obtain ⟨t, ht⟩ := Option.isSome_iff_exists.mp (h i hi)
  obtain ⟨-, -, -, -, -, ⟨hopcode, -⟩ | ⟨hopcode, -⟩⟩ := Transfer.ofInsn?_cases ht
  · rw [hopcode]
    decide
  · rw [hopcode]
    decide

theorem IsCall.not_writes (h : IsCall call) (names : List String) : writes names call = false := by
  have hoperands := h.operands
  unfold writes
  rcases hlist : call.operands with _ | ⟨op, rest⟩
  · rfl
  · rw [hlist, map_cons] at hoperands
    have hvalue : op.value = .immediate 0x80 := (cons.inj hoperands).1
    simp [Operand.register?, hvalue]

theorem noteBlock_append (hblock : ∀ i ∈ block, i.opcode ≠ "INT") (hcall : call.opcode = "INT")
    (notes : Notes) (before : List Insn) :
    noteBlock before notes (block ++ [call]) =
      noteCall notes call.addr (call :: (block.reverse ++ before)) := by
  -- By the instructions in front of the call, which pile up in `before` with the last one on top.
  induction block generalizing before with
  | nil =>
    have hnext : ∀ e : Edited Notes, e.next (fun notes => noteBlock (call :: before) notes []) =
        e := by
      intro e
      rcases e with ⟨notes, _ | fault⟩
      · simp [Edited.next, Edited.andThen, noteBlock, Edited.done]
      · rfl
    rw [nil_append, noteBlock, if_pos hcall, hnext]
    rfl
  | cons i rest ih =>
    rw [cons_append, noteBlock, if_neg (hblock i (.head _)), ih (forall_mem_cons.mp hblock).2]
    simp

variable (hblock : Transfers block) (hcall : IsCall call)
include hblock hcall

theorem lastWritten_eq (names : List String) :
    lastWritten names (call :: block.reverse) = .ok (lastValue names block) := by
  rw [lastWritten, List.find?_cons_of_neg (by simp [hcall.not_writes names]), lastValue]
  cases hfind : block.reverse.find? (writes names) with
  | none => rfl
  | some i =>
    obtain ⟨t, ht⟩ := Option.isSome_iff_exists.mp
      (hblock i (mem_reverse.mp (mem_of_find?_eq_some hfind)))
    simp only [constant_eq ht, Option.map_some, ht]
    rfl

theorem argumentText_eq (register : String × List String) :
    argumentText (call :: block.reverse) register = .ok (shownArgument block register) := by
  rw [argumentText, lastWritten_eq hblock hcall, shownArgument]
  rcases lastValue register.2 block with _ | _ | v <;> rfl

theorem writeArguments_eq (registers : List (String × List String)) (text : String) :
    writeArguments (call :: block.reverse) text registers =
      .done (text ++ ", ".intercalate (registers.map (shownArgument block)) ++ ")") := by
  induction registers generalizing text with
  | nil => simp [writeArguments]
  | cons register rest ih =>
    cases rest with
    | nil =>
      rw [writeArguments, argumentText_eq hblock hcall]
      simp [Edited.attempt, Except.map, Edited.next, Edited.andThen, Edited.done]
    | cons second rest =>
      rw [writeArguments, argumentText_eq hblock hcall]
      · simp only [Edited.attempt, Except.map, Edited.next, Edited.andThen, Edited.done]
        rw [ih]
        simp [Edited.done, String.intercalate_cons_cons, String.append_assoc]
      · exact cons_ne_nil second rest

end Pass

/-! ## When notes are right -/

/-- No two calls have the same name. -/
theorem find?_name_eq :
    ∀ entry ∈ table, table.find? (fun other => other.2.1 = entry.2.1) = some entry := by
  decide +kernel

theorem hex_injective {v w : Int} (h : Text.hex v = Text.hex w) : v = w := by
  have hread := Text.hexadecimal?_hex v
  rw [h, Text.hexadecimal?_hex w] at hread
  exact (Option.some.inj hread).symm

theorem hex_ne_empty (v : Int) : Text.hex v ≠ "" := by
  intro h
  have hlist := congrArg String.toList h
  rw [Text.toList_hex] at hlist
  simp at hlist

/-- The name of a register is no number. -/
theorem register_ne_hex :
    ∀ register ∈ argumentRegisters, Plain register.1 ∧ ∀ v, register.1 ≠ Text.hex v := by
  have hhead : ∀ v c, (Text.hex v).toList.head? = some c → c = '-' ∨ c = '0' := by
    intro v c hc
    rw [Text.toList_hex] at hc
    split at hc
    · exact .inl (Option.some.inj hc).symm
    · exact .inr (Option.some.inj hc).symm
  have hnames : ∀ register ∈ argumentRegisters,
      register.1.toList.all (fun c => decide (c ≠ '(') && decide (c ≠ ',') && decide (c ≠ ' ')) =
      true ∧ register.1.toList.head? = some 'e' := by
    decide
  intro register hregister
  obtain ⟨hplain, hfirst⟩ := hnames register hregister
  simp only [all_eq_true, Bool.and_eq_true, decide_eq_true_eq, and_assoc] at hplain
  refine ⟨hplain, fun v heq => ?_⟩
  rw [heq] at hfirst
  exact absurd (hhead v 'e' hfirst) (by decide)

/-- Of the text of a call, the name and the numbers read back. -/
theorem exists_readCall? (name : String) {args : List String} (hplain : ∀ a ∈ args, Plain a) :
    ∃ read : List String, readCall? (callText name args) = some (name, read) ∧
      ∀ (j : Nat) (v : Int), read[j]? = some (Text.hex v) ↔ args[j]? = some (Text.hex v) := by
  by_cases hnone : args = []
  · subst hnone
    have hempty : ∀ a ∈ [""], Plain a := forall_mem_singleton.mpr fun c hc => by cases hc
    -- No arguments are read as an empty one.
    refine ⟨[""], readCall?_callText name (cons_ne_nil "" []) hempty, fun j v =>
      iff_of_false ?_ (by simp)⟩
    intro h
    exact hex_ne_empty v (mem_singleton.mp (mem_of_getElem? h))
  · exact ⟨args, readCall?_callText name hnone hplain, fun _ _ => Iff.rfl⟩

section Shown

variable {block : List Insn} {register : String × List String} {number : Int}
  {entry : Nat × String × Nat}

theorem plain_shownArgument (h : register ∈ argumentRegisters) :
    Plain (shownArgument block register) := by
  unfold shownArgument
  split
  · exact plain_hex _
  · exact (register_ne_hex register h).1

theorem shownArgument_eq_hex_iff (h : register ∈ argumentRegisters) (v : Int) :
    shownArgument block register = Text.hex v ↔ lastValue register.2 block = some (some v) := by
  have hname := (register_ne_hex register h).2 v
  unfold shownArgument
  rcases lastValue register.2 block with _ | _ | w
  · exact iff_of_false hname (by simp)
  · exact iff_of_false hname (by simp)
  · refine ⟨fun heq => by rw [hex_injective heq], fun heq => ?_⟩
    rw [Option.some.inj (Option.some.inj heq)]

/-- The arguments that are read as numbers are those that are taken to be known. -/
theorem getElem?_arguments (arity j : Nat) (v : Int) :
    ((argumentRegisters.take arity).map (shownArgument block))[j]? = some (Text.hex v) ↔
      j < arity ∧ ∃ register, argumentRegisters[j]? = some register ∧
        lastValue register.2 block = some (some v) := by
  rw [List.getElem?_map, List.getElem?_take, Option.map_eq_some_iff]
  split
  · rename_i hj
    constructor
    · rintro ⟨register, hregister, hshown⟩
      exact ⟨hj, register, hregister, (shownArgument_eq_hex_iff (mem_of_getElem? hregister) v).mp
        hshown⟩
    · rintro ⟨-, register, hregister, hlast⟩
      exact ⟨register, hregister, (shownArgument_eq_hex_iff (mem_of_getElem? hregister) v).mpr
        hlast⟩
  · rename_i hj
    refine iff_of_false ?_ fun h => hj h.1
    rintro ⟨register, hregister, -⟩
    cases hregister

variable (hnumber : lastValue numberRegister block = some (some number))
  (hentry : table.find? (fun e => (e.1 : Int) = number) = some entry)
include hnumber hentry

theorem mem_shownNumbers (c : Register × Int) :
    c ∈ shownNumbers block ↔ c = (.eax, number) ∨
      ∃ j : Nat, j < entry.2.2 ∧ callRegisters[j]? = some c.1 ∧
      ∃ register, argumentRegisters[j]? = some register ∧
        lastValue register.2 block = some (some c.2) := by
  rw [shownNumbers, hnumber]
  dsimp only
  rw [hentry]
  dsimp only
  rw [mem_cons, mem_filterMap]
  refine or_congr_right ?_
  constructor
  · rintro ⟨⟨r, register⟩, hmem, hvalue⟩
    obtain ⟨j, hj⟩ := mem_iff_getElem?.mp hmem
    rw [List.getElem?_take] at hj
    split at hj
    · rename_i hlt
      obtain ⟨hr, hregister⟩ := List.getElem?_zip_eq_some.mp hj
      obtain ⟨v, hv, rfl⟩ := Option.map_eq_some_iff.mp hvalue
      exact ⟨j, hlt, hr, register, hregister, Option.join_eq_some_iff.mp hv⟩
    · cases hj
  · rintro ⟨j, hlt, hr, register, hregister, hlast⟩
    refine ⟨(c.1, register), mem_iff_getElem?.mpr ⟨j, ?_⟩, ?_⟩
    · rw [List.getElem?_take, if_pos hlt]
      exact List.getElem?_zip_eq_some.mpr ⟨hr, hregister⟩
    · dsimp only
      rw [hlast]
      rfl

/-- A note that is written is right if the numbers that it shows are in their registers. -/
theorem right_iff (m : Registers) :
    Right m (callText entry.2.1 ((argumentRegisters.take entry.2.2).map (shownArgument block))) ↔
      ∀ c ∈ shownNumbers block, m c.1 = BitVec.ofInt 32 c.2 := by
  have hplain : ∀ a ∈ (argumentRegisters.take entry.2.2).map (shownArgument block), Plain a := by
    intro a ha
    obtain ⟨register, hregister, rfl⟩ := mem_map.mp ha
    exact plain_shownArgument (mem_of_mem_take hregister)
  obtain ⟨read, hread, hnumbers⟩ := exists_readCall? entry.2.1 hplain
  have hmem : entry ∈ table := mem_of_find?_eq_some hentry
  have hcode : (entry.1 : Int) = number := by simpa using List.find?_some hentry
  constructor
  · intro h c hc
    obtain ⟨hname, hargs⟩ := h entry.2.1 read hread
    rcases (mem_shownNumbers hnumber hentry c).mp hc with rfl | ⟨j, hj, hr, hlast⟩
    · rw [hname entry hmem rfl, ← hcode, BitVec.ofInt_natCast]
    · exact hargs j c.1 c.2 hr ((hnumbers j c.2).mpr ((getElem?_arguments _ j c.2).mpr ⟨hj, hlast⟩))
  · intro h name args hcall
    obtain ⟨rfl, rfl⟩ := Prod.mk.inj (Option.some.inj (hread.symm.trans hcall))
    refine ⟨fun other hother hname => ?_, fun j r v hr hv => ?_⟩
    · -- The entry of this name is the one that was found by its number.
      have hsame : other = entry := by
        have hfound := find?_name_eq other hother
        rw [hname, find?_name_eq entry hmem] at hfound
        exact (Option.some.inj hfound).symm
      have hnum := h (.eax, number) ((mem_shownNumbers hnumber hentry _).mpr (.inl rfl))
      rw [hsame, hnum, ← hcode, BitVec.ofInt_natCast]
    · obtain ⟨hj, hlast⟩ := (getElem?_arguments _ j v).mp ((hnumbers j v).mp hv)
      exact h (r, v) ((mem_shownNumbers hnumber hentry _).mpr (.inr ⟨j, hj, hr, hlast⟩))

end Shown

/-- The note on a call that ends a block is right, whatever the registers held before the block. -/
def NotesRight (notes : Notes) (block : List Insn) (call : Insn) : Prop :=
  ∀ (m : Registers) (text : String), (noteBlock [] notes (block ++ [call])).value.get? call.addr =
    some text → Right (m.after block) text

section Main

variable {notes : Notes} {block : List Insn} {call : Insn}

/-- The note on a call whose number is known. -/
theorem noteBlock_eq (hblock : Transfers block) (hcall : IsCall call) {number : Int}
    {entry : Nat × String × Nat} (hnumber : lastValue numberRegister block = some (some number))
    (hentry : table.find? (fun e => (e.1 : Int) = number) = some entry) :
    noteBlock [] notes (block ++ [call]) = .done (notes.insert call.addr
      (callText entry.2.1 ((argumentRegisters.take entry.2.2).map (shownArgument block)))) := by
  rw [noteBlock_append hblock.opcode_ne hcall.opcode, append_nil, noteCall,
    lastWritten_eq hblock hcall, hnumber]
  dsimp only
  rw [hentry]
  dsimp only
  rw [writeArguments_eq hblock hcall]
  rfl

/-- Notes are right just if the numbers that they show are always in their registers. -/
theorem notesRight_iff (hblock : Transfers block) (hcall : IsCall call)
    (hnotes : notes.get? call.addr = none) :
    NotesRight notes block call ↔
      ∀ c ∈ shownNumbers block, ∀ m : Registers, m.after block c.1 = BitVec.ofInt 32 c.2 := by
  have hnote := noteBlock_append hblock.opcode_ne hcall.opcode notes []
  rw [append_nil, noteCall, lastWritten_eq hblock hcall] at hnote
  -- Where the number is not known, there is nothing that could be wrong.
  have hsilent : shownNumbers block = [] →
      (∀ text, (noteBlock [] notes (block ++ [call])).value.get? call.addr = some text →
      readCall? text = none) → (NotesRight notes block call ↔
        ∀ c ∈ shownNumbers block, ∀ m : Registers, m.after block c.1 = BitVec.ofInt 32 c.2) := by
    intro hshown hread
    refine iff_of_true (fun m text htext name args hcall => ?_) fun c hc => ?_
    · rw [hread text htext] at hcall
      cases hcall
    · rw [hshown] at hc
      cases hc
  have hkept : ∀ text, notes.get? call.addr = some text → readCall? text = none := by
    intro text htext
    rw [hnotes] at htext
    cases htext
  rcases hnumber : lastValue numberRegister block with _ | _ | number
  · rw [hnumber] at hnote
    exact hsilent (by rw [shownNumbers, hnumber]) (by rw [hnote]; exact hkept)
  · rw [hnumber] at hnote
    refine hsilent (by rw [shownNumbers, hnumber]) fun text htext => ?_
    rw [hnote] at htext
    have htext := (OrdMap.get?_insert _ _ _ _).symm.trans htext
    rw [if_pos rfl] at htext
    rw [← Option.some.inj htext]
    decide
  · cases hentry : table.find? fun e => (e.1 : Int) = number with
    | none =>
      rw [hnumber] at hnote
      dsimp only at hnote
      rw [hentry] at hnote
      refine hsilent ?_ (by rw [hnote]; exact hkept)
      rw [shownNumbers, hnumber]
      dsimp only
      rw [hentry]
    | some entry =>
      have hwritten : (noteBlock [] notes (block ++ [call])).value.get? call.addr =
          some (callText entry.2.1 ((argumentRegisters.take entry.2.2).map
            (shownArgument block))) := by
        rw [noteBlock_eq hblock hcall hnumber hentry]
        exact (OrdMap.get?_insert _ _ _ _).trans (if_pos rfl)
      rw [NotesRight, hwritten]
      constructor
      · intro h c hc m
        exact (right_iff hnumber hentry _).mp (h m _ rfl) c hc
      · intro h m text htext
        rw [← Option.some.inj htext]
        exact (right_iff hnumber hentry _).mpr fun c hc => h c hc m

/-- A call whose number is known gets a note with its name and, for each argument, the value that
was written last if that is taken to be known, and else the register. The note is right, whatever
the registers held before the block, if and only if each number that is shown is in its register in
the trials. This is so if each has been put into the whole of its register and no part of the
register is written afterwards. -/
theorem note_right_iff (hblock : Transfers block) (hcall : IsCall call)
    (hnotes : notes.get? call.addr = none) :
    (∀ number entry, lastValue numberRegister block = some (some number) →
      table.find? (fun e => (e.1 : Int) = number) = some entry →
      noteBlock [] notes (block ++ [call]) = .done (notes.insert call.addr
        (callText entry.2.1 ((argumentRegisters.take entry.2.2).map (shownArgument block))))) ∧
    (NotesRight notes block call ↔
      ∀ c ∈ shownNumbers block, ∀ m ∈ Registers.probes, Registers.after m block c.1 =
        BitVec.ofInt 32 c.2) ∧
    ((∀ c ∈ shownNumbers block, SetsLast c.1 c.2 block) → NotesRight notes block call) := by
  have hright := notesRight_iff hblock hcall hnotes
  refine ⟨fun number entry hnumber hentry => noteBlock_eq hblock hcall hnumber hentry, ?_,
    fun hsets => ?_⟩
  · rw [hright]
    exact forall₂_congr fun c _ => Registers.after_eq_iff_probes block c.1 (BitVec.ofInt 32 c.2)
  · exact hright.mpr fun c hc m => (hsets c hc).after_eq m

/-- An instruction with two operands. -/
def twoOperands (addr : Int) (opcode : String) (target source : OperandValue) : Insn where
  addr := addr
  bytes := []
  opcode := opcode
  mnemonic := ""
  opText := ""
  operands := [⟨target, 0, none⟩, ⟨source, 0, none⟩]
  jumpGroup := false
  callGroup := false
  retGroup := false
  repetition := none
  condition := ""
  setsFlags := false
  readsPc := false

/-- The instruction that makes a system call, at an address. -/
def interrupt (addr : Int) : Insn :=
  { twoOperands addr "INT" .other .other with operands := [⟨.immediate 0x80, 0, none⟩] }

/-- `xor ebx, ebx; mov bl, 5; mov eax, 1`. -/
def exitWithFive : List Insn :=
  [twoOperands 0 "XOR" (.register "ebx" 0) (.register "ebx" 0),
    twoOperands 2 "MOV" (.register "bl" 0) (.immediate 5),
    twoOperands 4 "MOV" (.register "eax" 0) (.immediate 1)]

/-- The low byte of a register that is zero may be set to the argument: the note `exit(0x5)` is
right. -/
theorem note_right_iff_exitWithFive :
    Transfers exitWithFive ∧ IsCall (interrupt 9) ∧ (∅ : Notes).get? 9 = none ∧
    (noteBlock [] ∅ (exitWithFive ++ [interrupt 9])).value.get? 9 = some "exit(0x5)" ∧
    NotesRight ∅ exitWithFive (interrupt 9) := by
  have hblock : Transfers exitWithFive := by
    unfold Transfers
    decide
  have hcall : IsCall (interrupt 9) := ⟨rfl, rfl⟩
  obtain ⟨-, hright, -⟩ := @note_right_iff ∅ exitWithFive (interrupt 9) hblock hcall rfl
  refine ⟨hblock, hcall, rfl, by decide +kernel, hright.mpr ?_⟩
  decide +kernel

/-- `xor ebx, ecx; mov eax, 1`. -/
def exitWithMixed : List Insn :=
  [twoOperands 0 "XOR" (.register "ebx" 0) (.register "ecx" 0),
    twoOperands 2 "MOV" (.register "eax" 0) (.immediate 1)]

/-- A register that is combined with another one is taken to be zero: the note `exit(0x0)` is wrong
if `ebx` held one and `ecx` held zero. -/
theorem note_wrong_exitWithMixed :
    Transfers exitWithMixed ∧ IsCall (interrupt 7) ∧ (∅ : Notes).get? 7 = none ∧
    (noteBlock [] ∅ (exitWithMixed ++ [interrupt 7])).value.get? 7 = some "exit(0x0)" ∧
    Registers.after (Registers.single .ebx 1) exitWithMixed .ebx = 1 ∧
      ¬ NotesRight ∅ exitWithMixed (interrupt 7) := by
  have hblock : Transfers exitWithMixed := by
    unfold Transfers
    decide
  have hcall : IsCall (interrupt 7) := ⟨rfl, rfl⟩
  have hone : Registers.after (Registers.single .ebx 1) exitWithMixed .ebx = 1 := by decide
  have hshown : (Register.ebx, (0 : Int)) ∈ shownNumbers exitWithMixed := by decide +kernel
  refine ⟨hblock, hcall, rfl, by decide +kernel, hone, fun h => ?_⟩
  have hzero := (notesRight_iff hblock hcall rfl).mp h (.ebx, 0) hshown (Registers.single .ebx 1)
  rw [hone] at hzero
  exact absurd hzero (by decide)

end Main

end Decompiler.Syscall
