import Decompiler.Proofs.Dumps
/-!
# Symbols that are defined at the prompt

Symbols are kept in two tables, addresses by name and names by address. Right after loading every
name has an address that shows a symbol (`Act.load_settled`), though not always that name, since
names may share an address. Giving a known name to a new address takes the symbol away from the old
one. Other names that have the old address are left without a symbol there
(`Symbols.settled_moved_iff`), and such a name can no longer be defined (`Symbols.holds_moved_iff`).
So a sequence of definitions does what it says exactly if none takes a name away from an address
that another name has (`Shell.definitions_hold_iff`).
-/

namespace Decompiler

/-! ## Two tables -/

namespace Symbols

variable {s : Symbols} {name : String} {addr : Int}

/-- The address of every name shows a symbol. -/
def Settled (s : Symbols) : Prop :=
  ∀ name addr, s.byName.get? name = some addr → s.isNamed addr = true

/-- A name has an address, and the address shows the name. -/
def Holds (s : Symbols) (name : String) (addr : Int) : Prop :=
  s.byName.get? (some name) = some addr ∧ s.byAddr.get? addr = some (some name)

/-- Whether a name has an address that shows no symbol. -/
def stranded (s : Symbols) (name : String) : Bool :=
  (s.byName.get? (some name)).any fun addr => !s.isNamed addr

/-- The symbols after a name was given to an address at the prompt: the address that it had loses
its symbol. A name that is stranded stays as it is. -/
def moved (s : Symbols) (name : String) (addr : Int) : Symbols :=
  if s.stranded name then s
  else { s with byAddr := (s.byName.get? (some name)).elim s.byAddr s.byAddr.erase }.define
    (some name) addr

/-- Giving a name to another address takes it away from an address that some other name has too. -/
def Leaves (names : OrdMap SymbolName Int) (name : String) (addr : Int) : Prop :=
  ∃ other ∈ names.keys, other ≠ some name ∧ names.get? other = names.get? (some name) ∧
    names.get? other ≠ some addr

instance (names : OrdMap SymbolName Int) (name : String) (addr : Int) :
    Decidable (Leaves names name addr) :=
  inferInstanceAs (Decidable (∃ other ∈ names.keys, _))

theorem isNamed_iff {a : Int} : s.isNamed a = true ↔ ∃ n, s.byAddr.get? a = some n := by
  rw [isNamed, OrdMap.contains, Option.isSome_iff_exists]

theorem Settled.not_stranded (h : s.Settled) (name : String) : s.stranded name = false := by
  unfold stranded
  cases hname : s.byName.get? (some name) with
  | none => rfl
  | some addr => simp [h _ _ hname]

theorem moved_of_stranded (h : s.stranded name = true) (addr : Int) : s.moved name addr = s :=
  if_pos h

theorem moved_of_not_stranded (h : s.stranded name = false) (addr : Int) : s.moved name addr =
    { s with byAddr := (s.byName.get? (some name)).elim s.byAddr s.byAddr.erase }.define
      (some name) addr :=
  if_neg (by simp [h])

theorem byName_moved (h : s.stranded name = false) (addr : Int) :
    (s.moved name addr).byName = s.byName.insert (some name) addr := by
  rw [moved_of_not_stranded h]
  rfl

/-- After a definition the new address shows a symbol, and those from before but for the address
that the name had. -/
theorem isNamed_moved_iff (h : s.stranded name = false) {a : Int} :
    (s.moved name addr).isNamed a = true ↔ a = addr ∨ s.isNamed a = true ∧
      s.byName.get? (some name) ≠ some a := by
  have herased : (∃ n, ((s.byName.get? (some name)).elim s.byAddr s.byAddr.erase).get? a = some n) ↔
      s.isNamed a = true ∧ s.byName.get? (some name) ≠ some a := by
    rw [isNamed_iff]
    cases s.byName.get? (some name) with
    | none => simp
    | some old =>
      by_cases hold : old = a
      · simp [hold]
      · simp [hold, OrdMap.get?_erase_of_ne _ hold]
  rw [moved_of_not_stranded h, isNamed_iff, ← herased]
  show (∃ n, (OrdMap.insert _ addr (some name)).get? a = some n) ↔ _
  rw [OrdMap.get?_insert]
  by_cases ha : addr = a
  · simp [ha]
  · simp [ha, Ne.symm ha]

/-- A definition takes effect exactly if the name is not stranded. -/
theorem holds_moved_iff (s : Symbols) (name : String) (addr : Int) :
    (s.moved name addr).Holds name addr ↔ s.stranded name = false := by
  cases h : s.stranded name with
  | true =>
    -- An address that shows the name would show a symbol.
    rw [moved_of_stranded h]
    refine iff_of_false ?_ Bool.noConfusion
    rintro ⟨hname, haddr⟩
    have hnamed : s.isNamed addr = true := isNamed_iff.mpr ⟨_, haddr⟩
    simp [stranded, hname, hnamed] at h
  | false =>
    rw [moved_of_not_stranded h]
    exact iff_of_true ⟨OrdMap.get?_insert_self _ _ _, OrdMap.get?_insert_self _ _ _⟩ rfl

/-- A definition leaves every name with an address that shows a symbol exactly if no other name has
the address that the name is taken away from. -/
theorem settled_moved_iff (h : s.Settled) :
    (s.moved name addr).Settled ↔ ¬ Leaves s.byName name addr := by
  have hfree := h.not_stranded name
  have hget : ∀ n, (s.moved name addr).byName.get? n = if some name = n then some addr
      else s.byName.get? n := by
    intro n
    rw [byName_moved hfree, OrdMap.get?_insert]
  constructor
  · rintro hsettled ⟨other, hmem, hne, hshared, haway⟩
    obtain ⟨b, hb⟩ := OrdMap.mem_keys.mp hmem
    -- The other name keeps its address, so that this one would still have to show a symbol.
    have hnamed := hsettled other b (by rw [hget, if_neg (Ne.symm hne), hb])
    rcases (isNamed_moved_iff hfree).mp hnamed with rfl | ⟨-, hother⟩
    · exact haway hb
    · exact hother (hshared ▸ hb)
  · intro hstays n b hb
    rw [hget] at hb
    rw [isNamed_moved_iff hfree]
    by_cases hn : some name = n
    · rw [if_pos hn] at hb
      exact .inl (Option.some.inj hb).symm
    · rw [if_neg hn] at hb
      by_cases hab : b = addr
      · exact .inl hab
      · refine .inr ⟨h n b hb, fun hshared =>
          hstays ⟨n, OrdMap.mem_keys_of_get? hb, Ne.symm hn, ?_, ?_⟩⟩
        · rw [hb, hshared]
        · rw [hb]
          exact fun heq => hab (Option.some.inj heq)

theorem settled_empty : empty.Settled := by
  intro name addr h
  cases h

theorem Settled.define (h : s.Settled) (name : SymbolName) (addr : Int) :
    (s.define name addr).Settled := by
  intro n b hb
  rw [isNamed_iff]
  show ∃ m, (s.byAddr.insert addr name).get? b = some m
  rcases OrdMap.of_get?_insert hb with ⟨-, rfl⟩ | hb
  · exact ⟨name, OrdMap.get?_insert_self _ _ _⟩
  · rw [OrdMap.get?_insert]
    split
    · exact ⟨name, rfl⟩
    · exact isNamed_iff.mp (h n b hb)

end Symbols

/-! ## Symbols of a file -/

theorem Pe.symbols_settled {p : Pe} {syms : Symbols} (h : p.symbols = .ok syms) : syms.Settled := by
  obtain ⟨static, hstatic, h⟩ := Except.bind_eq_ok.mp h
  obtain ⟨imports, -, h⟩ := Except.bind_eq_ok.mp h
  obtain ⟨found, -, hfound⟩ := Except.bind_eq_ok.mp hstatic
  cases hfound
  cases h
  refine List.foldlRecOn _ _ ?_ fun acc hacc entry _ => hacc.define _ _
  exact List.foldlRecOn _ _ Symbols.settled_empty fun acc hacc sym _ => hacc.define _ _

/-- Whatever symbols a file lists, the address of every name shows one. -/
theorem Image.symbols_settled {img : Image} {syms : Symbols} (h : img.symbols = .ok syms) :
    syms.Settled := by
  cases img with
  | raw r =>
    cases h
    exact Symbols.settled_empty
  | elf e =>
    exact Elf.symbols_of_define (fun name addr hsyms => hsyms.define (some name) addr)
      Symbols.settled_empty h
  | pe p => exact Pe.symbols_settled h

/-- A program is loaded, and the address of every name shows a symbol. -/
def Session.Settled (σ : Session) : Prop := ∃ p, σ.program = some p ∧ p.symbols.Settled

namespace Act

open Session

theorem settled_define {σ : Session} {p : Program} (name : String) (addr : Int)
    (hp : σ.program = some p) (h : σ.Settled) :
    Settled { σ with program := some { p with symbols := p.symbols.define (some name) addr } } := by
  obtain ⟨q, hq, hsettled⟩ := h
  obtain rfl := Option.some.inj (hp.symm.trans hq)
  exact ⟨_, rfl, hsettled.define _ _⟩

/-- After a file has been loaded, with the symbols that the user adds, the address of every name
shows a symbol. -/
theorem load_settled {s σ : Session} {file : String} (h : load file s = .ok true σ) :
    σ.Settled := by
  unfold load at h
  rw [get_bind_apply] at h
  cases hfile : s.files.lookup file with
  | none =>
    rw [hfile] at h
    obtain ⟨_, s₁, -, h⟩ := bind_eq_ok.mp h
    exact absurd h giveUp_ne_true
  | some entry =>
    rw [hfile] at h
    cases entry with
    | directory =>
      obtain ⟨_, s₁, -, h⟩ := bind_eq_ok.mp h
      exact absurd h giveUp_ne_true
    | file f =>
      obtain ⟨p?, s₁, hread, h⟩ := bind_eq_ok.mp h
      cases p? with
      | none => cases h
      | some p =>
        -- The symbols that the user adds come after those of the file, and keep what is settled.
        have hsymbols := Image.symbols_settled (readProgram_eq_ok (read_eq_some hread)).2.2.1
        obtain ⟨_, s₂, hset, h⟩ := bind_eq_ok.mp h
        cases hset
        refine (Keeps.get.bind fun s₂ => ?_ : Keeps Settled _).of_ok ⟨p, rfl, hsymbols⟩ h
        dsimp only
        cases s₂.symbolFile with
        | none => exact Keeps.pure true
        | some bytes =>
          refine Keeps.bind (Keeps.modify fun s hs => hs) fun _ => ?_
          exact (keeps_addSymbolFile settled_define bytes).bind fun _ => Keeps.pure true

end Act

/-- The symbols of the program that is loaded. -/
def Session.symbols (σ : Session) : Symbols := σ.program.elim .empty (·.symbols)

/-! ## Definitions at the prompt -/

namespace Shell

open Session Act

/-- The name and the address in a command line that defines a symbol. -/
def definition? (line : String) : Option (String × Int) :=
  match invoked? line with
  | some (.symbols, [name, addr]) =>
    if name.toList.head?.any (· ≠ '|') && Text.startsWith addr "0x" then
      (Text.hexadecimal? addr).map (name, ·) else none
  | _ => none

/-- A command line that defines a symbol. -/
structure Definition where
  line : String
  name : String
  addr : Int
  reads : definition? line = some (name, addr)

/-- The session after some definitions. -/
def defined (σ : Session) (defs : List Definition) : Session :=
  endState ((defs.map (·.line)).forM run σ)

/-- The addresses of the names if every definition takes effect. -/
def definedNames (names : OrdMap SymbolName Int) (defs : List Definition) : OrdMap SymbolName Int :=
  defs.foldl (fun names d => names.insert (some d.name) d.addr) names

theorem definition?_eq_some {line name : String} {addr : Int}
    (h : definition? line = some (name, addr)) :
    ∃ c text, invoked? line = some (.symbols, [name, text]) ∧ name.toList.head? = some c ∧ c ≠ '|' ∧
      Text.startsWith text "0x" = true ∧ Text.hexadecimal? text = some addr := by
  unfold definition? at h
  split at h
  · rename_i first text hinvoked
    split at h
    · rename_i hform
      obtain ⟨n, hn, hpair⟩ := Option.map_eq_some_iff.mp h
      cases hpair
      obtain ⟨hfirst, hhex⟩ := (Bool.and_eq_true _ _).mp hform
      cases hc : name.toList.head? with
      | none => simp [hc] at hfirst
      | some c =>
        rw [hc] at hfirst
        exact ⟨c, text, hinvoked, rfl, of_decide_eq_true hfirst, hhex, hn⟩
    · cases h
  · cases h

variable {σ : Session} {p : Program}

/-- A definition moves the name, or says that it cannot. -/
theorem run_definition (hp : σ.program = some p) (d : Definition) :
    run d.line σ = if p.symbols.stranded d.name then
      error "there was an error when creating a symbol" σ
      else .ok () { σ with program := some { p with symbols := p.symbols.moved d.name d.addr }
        } := by
  obtain ⟨c, text, hinvoked, hc, hbar, hhex, hnumber⟩ := definition?_eq_some d.reads
  have hrun : run d.line σ = defineSymbol d.name text σ := by
    rw [run_of_invoked hinvoked]
    show runSymbols [d.name, text] σ = _
    rw [runSymbols, whenLoaded_of_some hp, get_bind_apply]
    simp only [hc, hbar, hhex, if_false, if_true]
  rw [hrun]
  unfold defineSymbol
  rw [bind_of_ok (program_eq_ok.mpr ⟨hp, rfl⟩), hnumber]
  cases hknown : p.symbols.byName.get? (some d.name) with
  | none =>
    have hfree : p.symbols.stranded d.name = false := by simp [Symbols.stranded, hknown]
    rw [hfree, Symbols.moved_of_not_stranded hfree, hknown]
    rfl
  | some old =>
    dsimp only
    cases hnamed : p.symbols.isNamed old with
    | true =>
      have hfree : p.symbols.stranded d.name = false := by simp [Symbols.stranded, hknown, hnamed]
      rw [hfree, Symbols.moved_of_not_stranded hfree, hknown]
      rfl
    | false =>
      have hstranded : p.symbols.stranded d.name = true := by
        simp [Symbols.stranded, hknown, hnamed]
      rw [hstranded]
      rfl

/-- The symbols after definitions, one after the other. -/
def movedBy (s : Symbols) (defs : List Definition) : Symbols :=
  defs.foldl (fun s d => s.moved d.name d.addr) s

/-- Definitions can always be run. -/
theorem run_definitions (hp : σ.program = some p) (defs : List Definition) :
    ∃ τ q, (defs.map (·.line)).forM run σ = .ok () τ ∧ τ.program = some q ∧
      q.symbols = movedBy p.symbols defs := by
  induction defs generalizing σ p with
  | nil => exact ⟨σ, p, rfl, hp, rfl⟩
  | cons d defs ih =>
    have hstep : ∃ σ₁ q, run d.line σ = .ok () σ₁ ∧ σ₁.program = some q ∧
        q.symbols = p.symbols.moved d.name d.addr := by
      rw [run_definition hp d]
      cases hstranded : p.symbols.stranded d.name with
      | true => exact ⟨_, p, rfl, hp, (Symbols.moved_of_stranded hstranded _).symm⟩
      | false => exact ⟨_, _, rfl, rfl, rfl⟩
    obtain ⟨σ₁, q, hrun, hq, hsymbols⟩ := hstep
    obtain ⟨τ, r, hrest, hr, hlast⟩ := ih hq
    refine ⟨τ, r, bind_eq_ok.mpr ⟨(), σ₁, hrun, hrest⟩, hr, ?_⟩
    rw [hlast, hsymbols]
    rfl

theorem defined_spec (hp : σ.program = some p) (defs : List Definition) :
    (defs.map (·.line)).forM run σ = .ok () (defined σ defs) ∧
      ∃ q, (defined σ defs).program = some q ∧ q.symbols = movedBy p.symbols defs := by
  obtain ⟨τ, q, hrun, hq, hsymbols⟩ := run_definitions hp defs
  rw [defined, hrun]
  exact ⟨rfl, q, hq, hsymbols⟩

theorem symbols_defined (hp : σ.program = some p) (defs : List Definition) :
    (defined σ defs).symbols = movedBy p.symbols defs := by
  obtain ⟨-, q, hq, hsymbols⟩ := defined_spec hp defs
  rw [Session.symbols, hq]
  exact hsymbols

theorem movedBy_concat (s : Symbols) (before : List Definition) (d : Definition) :
    movedBy s (before ++ [d]) = (movedBy s before).moved d.name d.addr := by
  simp [movedBy]

theorem forall_upTo_cons {α : Type} {P : List α → α → Prop} {x : α} {xs : List α} :
    (∀ before d, before ++ [d] <+: x :: xs → P before d) ↔
      P [] x ∧ ∀ before d, before ++ [d] <+: xs → P (x :: before) d := by
  constructor
  · intro h
    exact ⟨h [] x (by simp), fun before d hupTo => h (x :: before) d (by simpa using hupTo)⟩
  · rintro ⟨hfirst, hrest⟩ before d hupTo
    cases before with
    | nil =>
      obtain rfl : d = x := by simpa using hupTo
      exact hfirst
    | cons y before =>
      obtain ⟨rfl, hbehind⟩ : y = x ∧ before ++ [d] <+: xs := by simpa using hupTo
      exact hrest before d hbehind

/-- Definitions take effect one after the other, and leave no name without a symbol, exactly if none
takes a name away from an address that another name has. -/
theorem movedBy_holds_iff {s : Symbols} (h : s.Settled) (defs : List Definition) :
    (∀ before d, before ++ [d] <+: defs →
        (movedBy s (before ++ [d])).Holds d.name d.addr ∧ (movedBy s (before ++ [d])).Settled) ↔
      ∀ before d, before ++ [d] <+: defs →
        ¬ Symbols.Leaves (definedNames s.byName before) d.name d.addr := by
  induction defs generalizing s with
  | nil => simp
  | cons x defs ih =>
    rw [forall_upTo_cons, forall_upTo_cons]
    have hfree := h.not_stranded x.name
    have hfirst : (movedBy s ([] ++ [x])).Holds x.name x.addr ∧ (movedBy s ([] ++ [x])).Settled ↔
        ¬ Symbols.Leaves (definedNames s.byName []) x.name x.addr := by
      have hholds := (Symbols.holds_moved_iff s x.name x.addr).mpr hfree
      exact (and_iff_right hholds).trans (Symbols.settled_moved_iff h)
    rw [hfirst]
    refine and_congr_right fun hstays => ?_
    -- The next definitions start from symbols that are settled again, and the names are those that
    -- were meant.
    have hnext := ih ((Symbols.settled_moved_iff h).mpr hstays)
    rw [Symbols.byName_moved hfree] at hnext
    exact hnext

/-- After a file has been loaded, definitions at the prompt can always be run. One takes effect
exactly if the name is not stranded, and otherwise it only says so. All of them take effect, and the
address of every name shows a symbol throughout, exactly if none takes a name away from an address
that another name has. -/
theorem definitions_hold_iff {s σ : Session} {file : String} (hload : Act.load file s = .ok true σ)
    (defs : List Definition) :
    (defs.map (·.line)).forM run σ = .ok () (defined σ defs) ∧
      (∀ before d, before ++ [d] <+: defs →
        ((defined σ (before ++ [d])).symbols.Holds d.name d.addr ↔
          (defined σ before).symbols.stranded d.name = false) ∧
        ((defined σ before).symbols.stranded d.name = true →
          run d.line (defined σ before) = error "there was an error when creating a symbol"
      (defined σ before))) ∧ ((∀ before d, before ++ [d] <+: defs →
          (defined σ (before ++ [d])).symbols.Holds d.name d.addr ∧
        (defined σ (before ++ [d])).symbols.Settled) ↔ ∀ before d, before ++ [d] <+: defs →
          ¬ Symbols.Leaves (definedNames σ.symbols.byName before) d.name d.addr) := by
  obtain ⟨p, hp, hsettled⟩ := load_settled hload
  have hsymbols : σ.symbols = p.symbols := by
    rw [Session.symbols, hp]
    rfl
  refine ⟨(defined_spec hp defs).1, fun before d _ => ⟨?_, fun hstranded => ?_⟩, ?_⟩
  · rw [symbols_defined hp, symbols_defined hp, movedBy_concat]
    exact Symbols.holds_moved_iff _ _ _
  · obtain ⟨-, q, hq, hmoved⟩ := defined_spec hp before
    rw [symbols_defined hp, ← hmoved] at hstranded
    rw [run_definition hq, if_pos hstranded]
  · simp only [symbols_defined hp, hsymbols]
    exact movedBy_holds_iff hsettled defs

/-! ### Two names -/

/-- An ELF file with the symbols `f`, at 0x100, and `g`. -/
def twoNamesElf (other : Int) : Elf where
  machine := "x86"
  wordBits := 32
  bigEndian := false
  entry := 0
  sections := [⟨".symtab", 0, 0, 0, 0, [("f", 0x100), ("g", other)], []⟩]
  file := [0x7f, 0x45, 0x4c, 0x46]
  seen := []

/-- The file as it is stored. -/
def twoNamesFile (other : Int) : FileContents where
  bytes := (twoNamesElf other).file
  decoder := ⟨none, []⟩
  elf := some (twoNamesElf other)
  pe := none

/-- A session that can reach the file. -/
def twoNamesStart (other : Int) : Session :=
  Session.start { Options.standard with interactive := true, color := false }
    ⟨[("f", .file (twoNamesFile other))]⟩

/-- The program in the file. -/
def twoNamesProgram (other : Int) : Program where
  image := .elf (twoNamesElf other)
  target := ⟨.x86, .bits32, false⟩
  decoder := ⟨none, []⟩
  code := ∅
  symbols := (twoNamesElf other).addStatic Symbols.empty

/-- The session after the file was loaded. -/
def twoNamesLoaded (other : Int) : Session :=
  { twoNamesStart other with program := some (twoNamesProgram other) }

theorem load_twoNames (other : Int) :
    Act.load "f" (twoNamesStart other) = .ok true (twoNamesLoaded other) := by
  have hread : readProgram (twoNamesFile other) (twoNamesStart other) = .ok (twoNamesProgram other)
      (twoNamesStart other) := rfl
  exact load_of_lookup (lookup_alone (twoNamesFile other)) hread rfl

/-- The name `f` goes to the address of `g`, and a new name to the address that `f` had. -/
def twoMoves : List Definition :=
  [⟨"sym f 0x200", "f", 0x200, by decide +kernel⟩, ⟨"sym h 0x100", "h", 0x100, by decide +kernel⟩]

/-- With an address for each name, both definitions take effect. -/
theorem definitions_hold_iff_twoMoves :
    Act.load "f" (twoNamesStart 0x200) = .ok true (twoNamesLoaded 0x200) ∧
      ∀ before d, before ++ [d] <+: twoMoves →
        (defined (twoNamesLoaded 0x200) (before ++ [d])).symbols.Holds d.name d.addr ∧
          (defined (twoNamesLoaded 0x200) (before ++ [d])).symbols.Settled := by
  refine ⟨load_twoNames 0x200, (definitions_hold_iff (load_twoNames 0x200) twoMoves).2.2.mpr ?_⟩
  unfold twoMoves
  rw [forall_upTo_cons, forall_upTo_cons]
  refine ⟨by decide +kernel, by decide +kernel, by simp⟩

/-- Of two names at an address, one is moved: the address of the other shows no symbol any more, and
the other cannot be moved. -/
theorem alias_stays_stranded :
    Act.load "f" (twoNamesStart 0x100) = .ok true (twoNamesLoaded 0x100) ∧
      ∃ σ τ, run "sym f 0x200" (twoNamesLoaded 0x100) = .ok () σ ∧ run "sym g 0x300" σ = .ok () τ ∧
        (σ.symbols.byName.get? (some "g"), σ.symbols.isNamed 0x100) = (some 0x100, false) ∧
        (τ.symbols.byName.get? (some "g"), τ.symbols.byAddr.get? 0x300) = (some 0x100, none) ∧
        τ.console.err = "error: there was an error when creating a symbol\n" := by
  exact ⟨load_twoNames 0x100, _, _, rfl, rfl, by decide +kernel⟩

end Shell

end Decompiler
