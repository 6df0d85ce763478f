import Decompiler.Proofs.Acts
import Decompiler.Proofs.Decoding
import Decompiler.Session.Data
/-!
# Acts leave the loaded file as it is

Whatever an act does, short of loading another file, the session goes on with the same program: more
code may have been decoded, sections may be remembered, symbols may have been named, but all
look-ups answer as before (`Session.Tracks`). That is shown of the parts of which commands are made:
finding a place, dumps of code and data, lists of calls, and the analysis of a function. It is shown
for every property of sessions that does not depend on what these parts change (`Act.Indifferent`,
and `Act.FullyIndifferent` for the analysis).
-/

namespace Decompiler

/-! ## Decoding -/

namespace Program

variable {p₀ : Program} (h₀ : p₀.image.Steady)

theorem keeps_ask {α : Type} (answer : Except Fault α) : Keeps (Since p₀) (ask answer) := by
  cases answer with
  | ok a => exact Keeps.pure a
  | error e => exact Keeps.throw e

include h₀

theorem keeps_fetch (addr : Int) (within : Option Int) : Keeps (Since p₀) (fetch addr within) := by
  intro p hp
  obtain ⟨p', heq, h'⟩ := insnAt_eq h₀ hp addr within
  simp only [fetch, heq]
  exact h'

theorem keeps_fetchTarget (addr : Int) : Keeps (Since p₀) (fetchTarget addr) := by
  refine (keeps_fetch h₀ addr none).bind fun i? => ?_
  cases i? with
  | none => exact Keeps.throw _
  | some i => exact Keeps.pure i

/-! ### Stubs -/

omit h₀ in
theorem keeps_nameStub (place : Int) (ref : MemRef) : Keeps (Since p₀) (nameStub place ref) := by
  refine Keeps.get_bind fun p hp => ?_
  obtain ⟨image, target, decoder, code, symbols⟩ := p
  cases image with
  | raw | elf => exact hp
  | pe image =>
    dsimp only
    split
    · cases image.importAt? ref.disp with
      | none => exact hp
      | some name? =>
        cases name? with
        | none => exact hp
        | some name => exact { hp with }
    · exact hp

theorem keeps_nameStubAt (i : Insn) : Keeps (Since p₀) (nameStubAt i) := by
  unfold nameStubAt
  refine Keeps.get.bind fun p => ?_
  dsimp only
  split
  on_goal 1 => refine (keeps_ask _).bind fun op => (Keeps.pure _).bind ?_
  on_goal 2 => refine (Keeps.pure none).bind ?_
  all_goals
    intro called
    cases called with
    | none =>
      refine (keeps_ask _).bind fun jumps => ?_
      split
      · exact (keeps_ask _).bind fun slot => keeps_nameStub _ _
      · exact Keeps.pure _
    | some op =>
      refine (keeps_fetch h₀ _ none).bind fun stub? => ?_
      cases stub? with
      | none => exact Keeps.throw _
      | some stub =>
        refine (keeps_ask _).bind fun jumps => ?_
        split
        · refine (keeps_ask _).bind fun slot => ?_
          split
          · exact keeps_nameStub _ _
          · exact Keeps.pure _
        · exact Keeps.pure _

theorem keeps_nameStubsOf : ∀ insns : List Insn, Keeps (Since p₀) (nameStubsOf insns) := by
  intro insns
  induction insns with
  | nil => exact Keeps.pure 0
  | cons i rest ih =>
    exact (keeps_nameStubAt h₀ i).bind fun named => ih.bind fun count => Keeps.pure _

theorem keeps_nameStubs : Keeps (Since p₀) nameStubs :=
  Keeps.get.bind fun _ => keeps_nameStubsOf h₀ _

end Program

/-! ## Discovery -/

namespace Discovery

open Program

variable {p₀ : Program} (h₀ : p₀.image.Steady) (d : Discovery)

include h₀

theorem keeps_delaySlot (arch : Arch) (i : Insn) : Keeps (Since p₀) (delaySlot arch i) := by
  unfold delaySlot
  split
  · exact keeps_fetch h₀ i.next none
  · exact Keeps.pure none

omit h₀ in
theorem keeps_afterJump (arch : Arch) (i : Insn) (slot : Option Insn) :
    Keeps (Since p₀) (afterJump arch i slot) := by
  unfold afterJump
  split
  · cases slot with
    | none => exact Keeps.throw _
    | some s => exact Keeps.pure _
  · exact Keeps.pure _

theorem keeps_visitJump (i : Insn) (slot : Option Insn) :
    Keeps (Since p₀) (d.visitJump i slot) := by
  unfold visitJump
  cases i.target? with
  | none => exact Keeps.pure _
  | some addr => exact (keeps_fetchTarget h₀ addr).bind fun t => Keeps.pure _

theorem keeps_visitFork (arch : Arch) (i : Insn) (slot : Option Insn) :
    Keeps (Since p₀) (d.visitFork arch i slot) := by
  unfold visitFork
  cases i.target? with
  | none => exact Keeps.pure _
  | some addr =>
    refine (keeps_fetch h₀ addr none).bind fun t? =>
      (keeps_afterJump arch i slot).bind fun after => ?_
    refine (keeps_fetch h₀ after none).bind fun n? => ?_
    cases t? with
    | none => exact Keeps.throw _
    | some t =>
      cases n? with
      | none => exact Keeps.throw _
      | some n => exact Keeps.pure _

theorem keeps_visitStep (i : Insn) : Keeps (Since p₀) (d.visitStep i) := by
  refine (keeps_fetch h₀ i.next none).bind fun n? => ?_
  cases n? with
  | none | some n => exact Keeps.pure _

theorem keeps_visit (i : Insn) : Keeps (Since p₀) (d.visit i) := by
  refine Keeps.get.bind fun p => (keeps_delaySlot h₀ _ i).bind fun slot =>
    (keeps_ask _).bind fun jumps => ?_
  split
  · exact keeps_visitJump h₀ d i slot
  · refine (keeps_ask _).bind fun forks => ?_
    split
    · exact keeps_visitFork h₀ d _ i slot
    · refine (keeps_ask _).bind fun returns => ?_
      split
      · exact Keeps.pure _
      · exact keeps_visitStep h₀ d i

theorem keeps_visitAll :
    ∀ (fuel : Nat) (d : Discovery) (i : Insn), Keeps (Since p₀) (visitAll fuel d i) := by
  intro fuel
  induction fuel with
  | zero => intro d i; exact Keeps.throw _
  | succ fuel ih =>
    intro d i
    have hnew : Keeps (Since p₀) (d.visitNew i) := by
      unfold visitNew
      split
      · exact Keeps.pure d
      · exact keeps_visit h₀ d i
    refine hnew.bind fun d => ?_
    cases d.rest with
    | nil => exact Keeps.pure _
    | cons addr rest => exact (keeps_fetchTarget h₀ addr).bind fun i => ih _ i

end Discovery

open Program in
theorem Graph.keeps_discover {p₀ : Program} (h₀ : p₀.image.Steady) (entry : Int) :
    Keeps (Since p₀) (Graph.discover entry) := by
  refine (keeps_fetch h₀ entry none).bind fun i? => ?_
  cases i? with
  | none => exact Keeps.pure none
  | some i =>
    exact Keeps.get.bind fun p => (Discovery.keeps_visitAll h₀ _ _ i).bind fun g => Keeps.pure _

/-! ## Programs that are kept -/

namespace Program

/-- One program comes from another by look-ups and new symbols: it goes on from whatever that one
goes on from. -/
def Kept (p p' : Program) : Prop := ∀ p₀ : Program, p₀.image.Steady → p₀.Since p → p₀.Since p'

namespace Kept

variable {p p' p'' : Program}

theorem refl (p : Program) : p.Kept p := fun _ _ hp => hp

theorem trans (h : p.Kept p') (h' : p'.Kept p'') : p.Kept p'' :=
  fun p₀ h₀ hp => h' p₀ h₀ (h p₀ h₀ hp)

theorem of_keeps {α : Type} {op : Decoding α}
    (h : ∀ p₀ : Program, p₀.image.Steady → Keeps p₀.Since op) (p : Program) :
    p.Kept (endState (op p)) := fun p₀ h₀ hp => h p₀ h₀ p hp

theorem span (p : Program) (addr : Int) : p.Kept (p.span addr).2 :=
  fun _ h₀ hp => (hp.span h₀ addr).2

theorem checkAddr (p : Program) (addr : Int) :
    p.Kept { p with image := (p.image.checkAddr addr).2 } := by
  intro p₀ h₀ hp
  have himage : p₀.image.Recalls (p.image.checkAddr addr).2 := by
    rw [Image.checkAddr_image]
    exact (hp.image.span h₀ addr).2
  exact { hp with image := himage }

theorem symbols (p : Program) (symbols : Symbols) : p.Kept { p with symbols } :=
  fun _ _ hp => { hp with }

theorem read {addr size : Int} {block : List UInt8} (h : p.read addr size = (block, p')) :
    p.Kept p' := by
  intro p₀ h₀ hp
  have hread := (hp.read h₀ addr size).2
  rw [h] at hread
  exact hread

theorem wordRows (width last : Int) (blocks room : Nat) (addr : Int) (p : Program) :
    p.Kept (WordRow.ofProgram width last blocks room addr p).2 := by
  fun_induction WordRow.ofProgram width last blocks room addr p with
  | case1 | case2 => exact refl _
  | case3 blocks room addr p hroom p' hread | case5 blocks room addr p hroom block p' hread =>
    exact read hread
  | case4 blocks room addr p hroom block p' hread hne rows later p'' hlater hrows ih =>
    rw [hlater] at ih
    exact (read hread).trans ih

theorem textRows (last : Int) (blocks room : Nat) (addr : Int) (carry : TextRow.Carry)
    (p : Program) :
    p.Kept (TextRow.ofProgram last blocks room addr carry p).2 := by
  fun_induction TextRow.ofProgram last blocks room addr carry p with
  | case1 | case2 => exact refl _
  | case3 blocks room addr carry p hroom p' hread
  | case4 blocks room addr carry p hroom block p' hread => exact read hread
  | case5 blocks room addr carry p hroom block p' hread hne rows addr' carry' room' hrows later p''
      hlater ih =>
    rw [hlater] at ih
    exact (read hread).trans ih

end Kept

end Program

/-! ## Acts -/

namespace Act

variable {α : Type} {I : Session → Prop}

/-! ### Reading and writing -/

theorem keeps_fail (e : Fault) : Keeps I (fail e : Act α) := Keeps.throw _

theorem keeps_ask (answer : Except Fault α) : Keeps I (ask answer) := by
  cases answer with
  | ok a => exact Keeps.pure a
  | error e => exact keeps_fail e

theorem keeps_giveUp : Keeps I giveUp := by
  refine Keeps.get.bind fun σ => ?_
  split
  · exact Keeps.pure false
  · exact Keeps.throw _

theorem keeps_program : Keeps I program := by
  refine Keeps.get.bind fun σ => ?_
  cases σ.program with
  | none => exact keeps_fail _
  | some p => exact Keeps.pure p

/-- The program of the session is the one that was read, until it is changed. -/
theorem keeps_program_bind {f : Program → Act α}
    (h : ∀ p σ, σ.program = some p → I σ → I (endState (f p σ))) : Keeps I (program >>= f) := by
  intro σ hσ
  refine endState_bind (keeps_program σ hσ) fun p σ' hread _ => ?_
  obtain ⟨hp, rfl⟩ := program_eq_ok.mp hread
  exact h p σ hp hσ

theorem keeps_decode {op : Decoding α}
    (h : ∀ p σ, σ.program = some p → I σ → I { σ with program := some (endState (op p)) }) :
    Keeps I (decode op) := by
  refine keeps_program_bind fun p σ hp hσ => ?_
  have hend := h p σ hp hσ
  cases hop : op p with
  | ok a p' | error e p' => rwa [hop] at hend

theorem keeps_checkAddress {addr : Int}
    (h : ∀ p σ, σ.program = some p → I σ →
      I { σ with program := some { p with image := (p.image.checkAddr addr).2 } }) :
    Keeps I (checkAddress addr) := by
  refine keeps_program_bind fun p σ hp hσ => ?_
  have hend := h p σ hp hσ
  rcases hcheck : p.image.checkAddr addr with ⟨⟨mapped, executable⟩, image⟩
  rw [hcheck] at hend
  have hmapped : Keeps I (if !mapped then fail (.notMapped addr) else pure ()) := by
    split
    · exact keeps_fail _
    · exact Keeps.pure ()
  refine endState_bind hend fun _ σ' _ h => ?_
  refine (Keeps.get.bind fun s => ?_ : Keeps I _) σ' h
  dsimp only
  split
  · exact (keeps_fail _).bind fun _ => hmapped
  · exact hmapped

/-- A property of sessions that does not depend on what was reported. -/
def Quiet (I : Session → Prop) : Prop :=
  ∀ σ err, I σ → I { σ with console := { σ.console with err } }

theorem Quiet.keeps_report (hI : Quiet I) (text : String) : Keeps I (report text) :=
  Keeps.modify fun σ hσ => hI σ _ hσ

theorem Quiet.keeps_error (hI : Quiet I) (text : String) : Keeps I (error text) := hI.keeps_report _

theorem Quiet.keeps_trace (hI : Quiet I) (text : String) : Keeps I (trace text) := by
  refine Keeps.get.bind fun σ => ?_
  split
  · exact hI.keeps_report text
  · exact Keeps.pure ()

theorem keeps_sweep {visit : Int → Option Insn → Act Unit} {span : SectionSpan}
    (hfetch : ∀ addr, Keeps I (decode (Program.fetch addr (some span.start))))
    (hvisit : ∀ addr i?, Keeps I (visit addr i?)) :
    ∀ (count : Nat) (addr : Int), Keeps I (sweep visit span count addr) := by
  intro count
  induction count with
  | zero => intro addr; exact Keeps.pure ()
  | succ count ih =>
    intro addr
    unfold sweep
    split
    · exact (hfetch addr).bind fun i? => (hvisit addr i?).bind fun _ => ih _
    · exact Keeps.pure ()

theorem keeps_tintJump (hmark : ∀ addr, Keeps I (mark (·.tint addr))) (addr : Int)
    (i? : Option Insn) : Keeps I (tintJump addr i?) := by
  cases i? with
  | none => exact Keeps.pure ()
  | some i =>
    refine keeps_program.bind fun p => (keeps_ask _).bind fun jumps => ?_
    split
    · refine (keeps_ask _).bind fun op => ?_
      split
      · exact hmark _
      · exact Keeps.pure ()
    · exact Keeps.pure ()

theorem keeps_nameStubs (hI : Quiet I) (hdecode : Keeps I (decode Program.nameStubs)) :
    Keeps I nameStubs := by
  refine keeps_program.bind fun p => ?_
  split
  · exact hdecode.bind fun count => hI.keeps_trace _
  · exact Keeps.pure ()

/-- A property of sessions that does not depend on what listings change: what was written, the
place, the entry and the colours, what the program remembers, and what is displayed. -/
structure Indifferent (I : Session → Prop) : Prop where
  quiet : Quiet I
  print : ∀ text, Keeps I (print text)
  program : ∀ {σ p p'}, σ.program = some p → p.Kept p' → I σ → I { σ with program := some p' }
  place : ∀ {σ} name, I σ → I { σ with entryName := name }
  entry : ∀ {σ} addr, I σ → I { σ with marks := { σ.marks with entry := addr } }
  tint : ∀ {σ} addr, I σ → I { σ with marks := σ.marks.tint addr }
  display : ∀ {σ} sectionNames comments, I σ →
    I { σ with options := { σ.options with sectionNames, comments } }

namespace Indifferent

variable (hI : Indifferent I)

include hI

theorem keeps_list (l : Listing α) : Keeps I (list l) :=
  Keeps.get.bind fun _ => (hI.print _).bind fun _ => keeps_ask _

theorem keeps_listScene (l : Scene → Listing α) : Keeps I (listScene l) :=
  (keeps_program.bind fun _ => Keeps.get.bind fun _ => Keeps.pure _).bind fun _ => hI.keeps_list _

theorem keeps_decode {op : Decoding α} (h : ∀ p₀ : Program, p₀.image.Steady → Keeps p₀.Since op) :
    Keeps I (decode op) :=
  Act.keeps_decode fun p _ hp hσ => hI.program hp (Program.Kept.of_keeps h p) hσ

/-! ### Places -/

theorem keeps_namedAddress : Keeps I namedAddress := by
  refine Keeps.get.bind fun σ => keeps_program.bind fun p => ?_
  cases σ.callsSection with
  | some sec => exact keeps_ask _
  | none =>
    dsimp only
    split
    · exact Keeps.pure _
    · refine (keeps_ask _).bind fun addr => ?_
      split
      · exact Keeps.bind (Keeps.modify fun σ h => hI.place _ h) fun _ => Keeps.pure _
      · exact Keeps.pure _

theorem keeps_reportPlaceFault (e : Stop) : Keeps I (reportPlaceFault e) := by
  unfold reportPlaceFault
  split
  · exact (hI.quiet.keeps_error _).bind fun _ => keeps_giveUp
  · refine (hI.quiet.keeps_error _).bind fun _ => Keeps.get.bind fun σ => ?_
    split
    · exact Keeps.pure false
    · exact (hI.quiet.keeps_error _).bind fun _ => (hI.quiet.keeps_error _).bind fun _ =>
        Keeps.throw _
  · exact (hI.quiet.keeps_error _).bind fun _ => keeps_giveUp
  · exact (hI.quiet.keeps_error _).bind fun _ => keeps_giveUp
  · exact Keeps.throw _

theorem keeps_findEntry : Keeps I findEntry := by
  refine Keeps.tryCatch ?_ hI.keeps_reportPlaceFault
  refine hI.keeps_namedAddress.bind fun addr =>
    Keeps.bind (keeps_checkAddress fun p _ hp hσ => ?_) fun _ => ?_
  · exact hI.program hp (Program.Kept.checkAddr p addr) hσ
  exact Keeps.bind (Keeps.modify fun σ h => hI.entry addr h) fun _ => Keeps.pure true

theorem keeps_sectionAt (addr : Int) : Keeps I (sectionAt addr) := by
  refine keeps_program_bind fun p σ hp hσ => ?_
  have hkept := Program.Kept.span p addr
  rcases hlookup : p.span addr with ⟨span?, p'⟩
  rw [hlookup] at hkept
  refine endState_bind (hI.program hp hkept hσ) fun _ σ' _ h => ?_
  cases span? with
  | some span | none => exact h

theorem keeps_sectionHead : Keeps I sectionHead :=
  Keeps.get.bind fun _ => (hI.keeps_sectionAt _).bind fun _ => (hI.keeps_list _).bind fun _ =>
    Keeps.pure _

/-! ### Dumps -/

theorem keeps_fetch (addr : Int) (within : Option Int) :
    Keeps I (decode (Program.fetch addr within)) :=
  hI.keeps_decode fun _ h₀ => Program.keeps_fetch h₀ addr within

theorem keeps_tint (addr : Int) : Keeps I (mark (·.tint addr)) :=
  Keeps.modify fun _ h => hI.tint addr h

theorem keeps_stubs : Keeps I nameStubs :=
  keeps_nameStubs hI.quiet (hI.keeps_decode fun _ h₀ => Program.keeps_nameStubs h₀)

theorem keeps_dumpInsn (addr : Int) (i? : Option Insn) : Keeps I (dumpInsn addr i?) := by
  cases i? with
  | none | some i => exact hI.keeps_listScene _

theorem keeps_dumpCode (lines : Int) : Keeps I (dumpCode lines) := by
  refine hI.keeps_sectionHead.bind fun span => Keeps.get.bind fun σ => ?_
  refine (keeps_sweep (fun addr => hI.keeps_fetch addr _) (keeps_tintJump hI.keeps_tint) _ _).bind
    fun _ => ?_
  exact hI.keeps_stubs.bind fun _ =>
    keeps_sweep (fun addr => hI.keeps_fetch addr _) hI.keeps_dumpInsn _ _

theorem keeps_listCalls : Keeps I listCalls := by
  refine hI.keeps_sectionHead.bind fun span =>
    keeps_sweep (fun addr => hI.keeps_fetch addr _) (fun addr i? => ?_) _ _
  cases i? with
  | none => exact Keeps.pure ()
  | some i =>
    refine keeps_program.bind fun p => ?_
    split
    · exact hI.keeps_listScene _
    · exact Keeps.pure ()

theorem keeps_dumpWords (lines width : Int) : Keeps I (dumpWords lines width) := by
  refine hI.keeps_sectionHead.bind fun span => Keeps.get.bind fun s =>
    keeps_program_bind fun p σ hp hσ => ?_
  have hkept := Program.Kept.wordRows width span.last lines.toNat lines.toNat s.marks.entry p
  exact endState_bind (hI.program hp hkept hσ) fun _ σ' _ h => hI.keeps_listScene _ σ' h

theorem keeps_dumpTexts (lines : Int) : Keeps I (dumpTexts lines) := by
  refine hI.keeps_sectionHead.bind fun span => Keeps.get.bind fun s =>
    keeps_program_bind fun p σ hp hσ => ?_
  have hkept := Program.Kept.textRows span.last ((span.last - s.marks.entry).toNat + 1) lines.toNat
    s.marks.entry TextRow.noCarry p
  exact endState_bind (hI.program hp hkept hσ) fun _ σ' _ h => hI.keeps_listScene _ σ' h

end Indifferent

/-! ### Decompiling -/

/-- A property of sessions that does not depend on the results of an analysis either. Either no
files are written for an editor where it holds, or it does not depend on what is written there. -/
structure FullyIndifferent (I : Session → Prop) : Prop extends Indifferent I where
  analysis : ∀ {σ} graph nest marks notes drawing, I σ →
    I { σ with graph, nest, marks, notes, drawing }
  editor : (∀ σ, I σ → σ.forEditor = false) ∨ ∀ {σ} color files redirect, I σ →
    I { σ with options := { σ.options with color }, files, console := { σ.console with redirect } }

namespace FullyIndifferent

variable (hI : FullyIndifferent I)

include hI

theorem keeps_mark (f : Marks → Marks) : Keeps I (mark f) :=
  Keeps.modify fun σ h => hI.analysis σ.graph σ.nest (f σ.marks) σ.notes σ.drawing h

theorem keeps_discoverGraph : Keeps I discoverGraph := by
  refine Keeps.get.bind fun σ => (hI.keeps_decode fun _ h₀ => Graph.keeps_discover h₀ _).bind
    fun g? => ?_
  cases g? with
  | none => exact Keeps.pure none
  | some g => exact hI.keeps_stubs.bind fun _ => (hI.quiet.keeps_trace _).bind fun _ => Keeps.pure _

theorem keeps_prepareGraph (g : Graph) : Keeps I (prepareGraph g) := by
  refine keeps_program.bind fun p => (keeps_ask _).bind fun g =>
    (hI.quiet.keeps_trace _).bind fun _ => ?_
  refine (keeps_ask _).bind fun nest => (hI.quiet.keeps_trace _).bind fun _ => ?_
  refine Keeps.bind (Keeps.modify fun σ h => ?_) fun _ => Keeps.pure _
  exact hI.analysis (some g) (some nest) σ.marks σ.notes σ.drawing h

theorem keeps_structureGraph (g : Graph) (nest : LoopNest) : Keeps I (structureGraph g nest) := by
  refine Keeps.get.bind fun σ => keeps_program.bind fun p => ?_
  dsimp only
  split
  · refine (hI.keeps_mark _).bind fun _ => (Keeps.pure _).bind fun draft => ?_
    exact (keeps_ask _).bind fun tree => (hI.quiet.keeps_trace _).bind fun _ => Keeps.pure _
  · refine (hI.keeps_mark _).bind fun _ => (keeps_fail _).bind fun draft => ?_
    exact (keeps_ask _).bind fun tree => (hI.quiet.keeps_trace _).bind fun _ => Keeps.pure _

theorem keeps_runPasses (succs : Edges) (passes : List Pass) (tree : List Node) :
    Keeps I (runPasses succs passes tree) := by
  refine Keeps.get.bind fun σ => keeps_program.bind fun p => ?_
  refine Keeps.bind (Keeps.modify fun σ h => ?_) fun _ => keeps_ask _
  exact hI.analysis σ.graph σ.nest _ _ σ.drawing h

theorem keeps_buildTree (g : Graph) (nest : LoopNest) : Keeps I (buildTree g nest) := by
  refine (hI.keeps_structureGraph g nest).bind fun tree => keeps_program.bind fun p => ?_
  refine (hI.keeps_runPasses _ _ tree).bind fun tree => (hI.quiet.keeps_trace _).bind fun _ => ?_
  refine Keeps.get.bind fun σ => ?_
  split
  · exact hI.keeps_runPasses _ _ _
  · exact Keeps.pure _

section Editor

variable (hwrite : ∀ {σ : Session} color files redirect, I σ →
  I { σ with options := { σ.options with color }, files, console := { σ.console with redirect } })

include hwrite

omit hI

theorem keeps_dropColor : Keeps I dropColor :=
  Keeps.modify fun σ h => hwrite false σ.files σ.console.redirect h

theorem keeps_writeFile (path text : String) : Keeps I (writeFile path text) :=
  Keeps.get.bind fun _ => (keeps_ask _).bind fun _ =>
    Keeps.modify fun σ h => hwrite σ.options.color _ σ.console.redirect h

theorem keeps_writeEditorColors (base : String) : Keeps I (writeEditorColors base) := by
  refine Keeps.get.bind fun σ => ?_
  rcases EditorColors.rulesFile σ.marks with ⟨text, fault⟩
  refine (keeps_writeFile hwrite _ _).bind fun _ => ?_
  cases fault with
  | none => exact Keeps.pure ()
  | some e => exact keeps_fail e

theorem keeps_redirectTo (path : String) : Keeps I (redirectTo path) :=
  (keeps_writeFile hwrite path "").bind fun _ => Keeps.modify fun σ h =>
    hwrite σ.options.color σ.files _ h

end Editor

theorem keeps_decompile : Keeps I decompile := by
  refine hI.keeps_discoverGraph.bind fun found =>
    Keeps.bind (Keeps.modify fun σ h => ?_) fun _ => ?_
  · exact hI.analysis found σ.nest σ.marks σ.notes σ.drawing h
  · cases found with
    | none => exact (hI.quiet.keeps_error _).bind fun _ => Keeps.pure none
    | some g =>
      refine (hI.keeps_prepareGraph g).bind fun r => Keeps.get.bind fun σ => ?_
      obtain ⟨g, nest⟩ := r
      dsimp only
      split
      on_goal 1 =>
        refine Keeps.bind (Keeps.modify fun σ h => ?_) fun _ => ?_
        on_goal 1 => exact hI.analysis σ.graph σ.nest σ.marks σ.notes _ h
      all_goals
        refine Keeps.bind (Keeps.tryCatch (Keeps.map some (hI.keeps_buildTree g nest))
          fun e => ?_) fun tree? => ?_
        · split
          · exact (hI.quiet.keeps_error _).bind fun _ => keeps_giveUp.bind fun _ => Keeps.pure none
          · exact (hI.print _).bind fun _ => Keeps.throw _
          · exact Keeps.throw _
        · cases tree? with
          | none => exact Keeps.pure none
          | some tree =>
            refine Keeps.bind (Keeps.get.bind fun _ => Keeps.pure _) fun base =>
              Keeps.get_bind fun σ h => ?_
            have hlist : Keeps I (listScene fun s => s.function s.marks.entry tree) :=
              hI.keeps_listScene _
            cases hforEditor : σ.forEditor with
            | false => exact (hlist.bind fun _ => Keeps.pure _ : Keeps I _) σ h
            | true =>
              rcases hI.editor with hnone | hwrite
              · rw [hnone σ h] at hforEditor
                cases hforEditor
              · refine ((hI.keeps_runPasses _ _ _).bind fun _ =>
                  (keeps_dropColor hwrite).bind fun _ => ?_ : Keeps I _) σ h
                refine (keeps_writeEditorColors hwrite base).bind fun _ =>
                  (keeps_redirectTo hwrite _).bind fun _ => ?_
                exact hlist.bind fun _ => (hI.quiet.keeps_report _).bind fun _ => Keeps.pure _

end FullyIndifferent

end Act

/-! ## Sessions that go on with a program -/

/-- A property of marks that neither a new entry nor a new colour changes. -/
structure Marks.Stable (M : Marks → Prop) : Prop where
  entry : ∀ m addr, M m → M { m with entry := addr }
  tint : ∀ m addr, M m → M (m.tint addr)

theorem Marks.stable_true : Marks.Stable fun _ => True :=
  ⟨fun _ _ _ => trivial, fun _ _ _ => trivial⟩

/-- What is left out does not change with the entry or with colours. -/
theorem Marks.stable_fused (fused : List Int) : Marks.Stable fun m => m.fused = fused := by
  refine ⟨fun m addr hm => hm, fun m addr hm => ?_⟩
  unfold Marks.tint
  split
  · exact hm
  · exact hm

/-- A session goes on with a program: look-ups answer as they did at first, and listings go to the
console. -/
structure Session.Tracks (p₀ : Program) (calls : Option String) (M : Marks → Prop) (σ : Session) :
    Prop where
  program : ∃ p, σ.program = some p ∧ p₀.Since p
  calls : σ.callsSection = calls
  marks : M σ.marks
  forEditor : σ.forEditor = false
  redirect : σ.console.redirect = none

namespace Act

open Session

variable {p₀ : Program} {calls : Option String} {M : Marks → Prop}

theorem quiet_tracks : Quiet (Tracks p₀ calls M) :=
  fun _ _ h => { h with }

theorem indifferent_tracks (h₀ : p₀.image.Steady) (hM : Marks.Stable M) :
    Indifferent (Tracks p₀ calls M) where
  quiet := quiet_tracks
  print text := by
    refine Keeps.modify fun σ h => ?_
    rw [h.redirect]
    exact { h with }
  program {σ p p'} hp hkept h := by
    obtain ⟨q, hq, hsince⟩ := h.program
    obtain rfl : p = q := Option.some.inj (hp.symm.trans hq)
    exact { h with program := ⟨p', rfl, hkept p₀ h₀ hsince⟩ }
  place _ h := { h with }
  entry addr h := { h with marks := hM.entry _ addr h.marks }
  tint addr h := { h with marks := hM.tint _ addr h.marks }
  display _ _ h := { h with }

theorem fullyIndifferent_tracks (h₀ : p₀.image.Steady) :
    FullyIndifferent (Tracks p₀ calls fun _ => True) where
  toIndifferent := indifferent_tracks h₀ Marks.stable_true
  analysis _ _ _ _ _ h := { h with marks := trivial }
  editor := .inl fun _ h => h.forEditor

end Act

end Decompiler
