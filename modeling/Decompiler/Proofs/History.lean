import Decompiler.Proofs.KeptFile
import Decompiler.Shell.Run
/-!
# Histories of command lines

After a file has been loaded, a history of command lines that load no other one leaves it as it is
(`Shell.history_tracks`); what is known of the marks stays true as well, unless a line decompiles.
Right after loading nothing has been decoded or marked (`Shell.run_fresh`).
-/

namespace Decompiler

open List

variable {σ σ' : Session} {p : Program}

/-! ## Commands -/

namespace Shell

open Session Act

theorem whenLoaded_of_none (hp : σ.program = none) (x : Act Unit) :
    whenLoaded x σ = error "load a file before" σ := by
  unfold whenLoaded
  rw [get_bind_apply, hp]
  rfl

theorem whenLoaded_of_some (hp : σ.program = some p) (x : Act Unit) : whenLoaded x σ = x σ := by
  unfold whenLoaded
  rw [get_bind_apply, hp]
  rfl

section Any

variable {I : Session → Prop} {a : Action}

theorem keeps_whenLoaded (hI : Quiet I) {a : Act Unit} (h : Keeps I a) :
    Keeps I (whenLoaded a) := by
  refine Keeps.get.bind fun σ => ?_
  split
  · exact h
  · exact hI.keeps_error _

variable (hI : Indifferent I)

include hI

theorem keeps_forgetPlace : Keeps I forgetPlace :=
  Keeps.modify fun _ h => hI.entry 0 (hI.place none h)

theorem keeps_placeAndLines (args : List String) : Keeps I (placeAndLines args) := by
  have hplace : ∀ lines : Int, Keeps I
      (modify (fun s => { s with entryName := args.head? }) >>= fun _ => pure lines : Act Int) :=
      fun lines =>
    Keeps.bind (Keeps.modify fun _ h => hI.place _ h) fun _ => Keeps.pure lines
  refine Keeps.get.bind fun σ => ?_
  dsimp only
  split
  · split
    · exact (Keeps.pure _).bind hplace
    · exact (keeps_fail _).bind hplace
  · exact (Keeps.pure _).bind hplace

theorem keeps_runDump (args : List String) : Keeps I (runDump args) := by
  refine keeps_whenLoaded hI.quiet ((keeps_placeAndLines hI args).bind fun lines => ?_)
  refine hI.keeps_findEntry.bind fun found => ?_
  split
  · exact (hI.keeps_dumpCode lines).bind fun _ => keeps_forgetPlace hI
  · exact Keeps.pure ()

omit hI in
theorem keeps_runDecompile (hI : FullyIndifferent I) (args : List String) :
    Keeps I (runDecompile args) := by
  refine keeps_whenLoaded hI.quiet (Keeps.bind (Keeps.modify fun σ h => ?_) fun _ => ?_)
  · exact hI.analysis σ.graph σ.nest Marks.empty σ.notes σ.drawing (hI.place args.head? h)
  · refine hI.keeps_findEntry.bind fun found => ?_
    split
    · exact hI.keeps_decompile.bind fun _ => keeps_forgetPlace hI.toIndifferent
    · exact Keeps.pure ()

theorem keeps_defineSymbol (name addr : String) : Keeps I (defineSymbol name addr) := by
  refine keeps_program_bind fun p σ hp hσ => ?_
  have hdefined : ∀ symbols : Symbols, I { σ with program := some { p with symbols } } :=
    fun symbols => hI.program hp (Program.Kept.symbols p symbols) hσ
  dsimp only
  cases Text.hexadecimal? addr with
  | none => exact hI.quiet.keeps_error _ σ hσ
  | some n =>
    cases p.symbols.byName.get? (some name) with
    | none => exact hdefined _
    | some old =>
      dsimp only
      split
      · exact hdefined _
      · exact hI.quiet.keeps_error _ σ hσ

theorem keeps_runSymbols (args : List String) : Keeps I (runSymbols args) := by
  refine keeps_whenLoaded hI.quiet (Keeps.get.bind fun σ => ?_)
  cases args with
  | nil => exact hI.keeps_listScene _
  | cons first others =>
    dsimp only
    cases first.toList.head? with
    | none => exact keeps_fail _
    | some c =>
      dsimp only
      split
      · split
        · exact hI.keeps_listScene _
        · exact hI.quiet.keeps_error _
      · split
        · exact hI.quiet.keeps_error _
        · split
          · exact keeps_defineSymbol hI _ _
          · exact hI.quiet.keeps_error _
        · exact hI.quiet.keeps_error _

theorem keeps_runSections : Keeps I runSections :=
  keeps_whenLoaded hI.quiet ((hI.print _).bind fun _ => keeps_program.bind fun _ => hI.keeps_list _)

theorem keeps_runInfo : Keeps I runInfo := by
  refine Keeps.get.bind fun σ => ?_
  dsimp only
  cases σ.fileName with
  | none => exact hI.print _
  | some name =>
    refine (hI.print _).bind fun _ => (keeps_ask _).bind fun found => ?_
    have hrest : Keeps I (do
        print "Type: "
        let p ← program
        printLine p.image.format
        print "Arch: "
        printLine (targetName p.target)
        printLine ("Endianess: " ++ (if p.target.bigEndian then "big" else "little") ++
          " endian")) := by
      refine (hI.print _).bind fun _ => keeps_program.bind fun p => (hI.print _).bind fun _ => ?_
      exact (hI.print _).bind fun _ => (hI.print _).bind fun _ => hI.print _
    obtain ⟨place, entry⟩ := found
    cases entry with
    | directory | file f => exact (hI.print _).bind fun _ => hrest

theorem keeps_toggleSections : Keeps I toggleSections := by
  refine Keeps.get.bind fun σ => (hI.print _).bind fun _ => Keeps.modify fun τ h => ?_
  exact hI.display _ τ.options.comments h

theorem keeps_toggleComments : Keeps I toggleComments := by
  refine Keeps.get.bind fun σ => (hI.print _).bind fun _ => Keeps.modify fun τ h => ?_
  exact hI.display τ.options.sectionNames _ h

theorem keeps_runHelp : Keeps I runHelp := Keeps.get.bind fun _ => hI.print _

/-- Whether an action only lists something, or changes what is displayed or named. -/
def Action.lists : Action → Bool
  | .help | .dump | .nothing | .symbols | .leave | .sections | .info | .toggleSections
  | .toggleComments => true
  | .load | .loadRaw .. | .decompile | .data _ | .calls => false

theorem keeps_act (ha : a.lists = true) (args : List String) : Keeps I (act args a) := by
  cases a with
  | load | loadRaw | decompile | data | calls => cases ha
  | help => exact keeps_runHelp hI
  | dump => exact keeps_runDump hI args
  | nothing => exact Keeps.pure ()
  | symbols => exact keeps_runSymbols hI args
  | leave => exact Keeps.throw _
  | sections => exact keeps_runSections hI
  | info => exact keeps_runInfo hI
  | toggleSections => exact keeps_toggleSections hI
  | toggleComments => exact keeps_toggleComments hI

omit hI in
/-- Listing the calls in a section starts at the section, and forgets it afterwards. -/
theorem runCalls_forgets {J : String → Session → Prop} (hI : Quiet I)
    (hJ : ∀ name, Indifferent (J name))
    (hset : ∀ {σ} name, I σ → J name { σ with callsSection := some name })
    (hforget : ∀ {σ} name, J name σ → I { σ with callsSection := none }) {args : List String}
    (hσ : I σ) (h : runCalls args σ = .ok () σ') : I σ' := by
  unfold runCalls at h
  split at h
  · rename_i name
    have hforgotten : ∀ {s : Session} {u : Unit}, J name s →
        (modify (fun s => { s with callsSection := none }) : Act Unit) s = .ok u σ' → I σ' := by
      intro s u hs hend
      cases hend
      exact hforget name hs
    unfold whenLoaded at h
    rw [get_bind_apply] at h
    split at h
    · obtain ⟨_, σ₁, hstart, h⟩ := bind_eq_ok.mp h
      have h₁ : J name σ₁ := by
        cases hstart
        exact hset name hσ
      obtain ⟨found, σ₂, hfind, h⟩ := bind_eq_ok.mp h
      have h₂ := (hJ name).keeps_findEntry.of_ok h₁ hfind
      dsimp only at h
      split at h
      · obtain ⟨_, σ₃, hlist, h⟩ := bind_eq_ok.mp h
        obtain ⟨_, σ₄, hplace, h⟩ := bind_eq_ok.mp h
        exact hforgotten ((keeps_forgetPlace (hJ name)).of_ok
          ((hJ name).keeps_listCalls.of_ok h₂ hlist) hplace) h
      · exact hforgotten h₂ h
    · exact (hI.keeps_error _).of_ok hσ h
  · exact (hI.keeps_error _).of_ok hσ h

end Any

variable {p₀ : Program} {calls : Option String} {M : Marks → Prop} (h₀ : p₀.image.Steady)
  (hM : Marks.Stable M)

theorem keeps_acceptData (b : Bool) : Keeps (Tracks p₀ calls M) (acceptData b) :=
  Keeps.modify fun _ h => { h with }

include h₀ hM

theorem keeps_runData (form : DataForm) (args : List String) :
    Keeps (Tracks p₀ calls M) (runData form args) := by
  have hI : Indifferent (Tracks p₀ calls M) := indifferent_tracks h₀ hM
  refine keeps_whenLoaded hI.quiet ((keeps_placeAndLines hI args).bind fun lines => ?_)
  refine (keeps_acceptData true).bind fun _ => hI.keeps_findEntry.bind fun found => ?_
  split
  · have hrest : Keeps (Tracks p₀ calls M) (forgetPlace >>= fun _ => acceptData false) :=
      (keeps_forgetPlace hI).bind fun _ => keeps_acceptData false
    cases form with
    | texts => exact (hI.keeps_dumpTexts lines).bind fun _ => hrest
    | words width => exact (hI.keeps_dumpWords lines width).bind fun _ => hrest
  · exact Keeps.pure ()

end Shell

/-! ## Command lines -/

namespace Shell

open Session Act

variable {line : String} {a : Action}

/-- Whether an action puts another file in place of the loaded one. -/
def Action.loads : Action → Bool
  | .load | .loadRaw .. => true
  | .help | .decompile | .data _ | .dump | .nothing | .symbols | .calls | .leave | .sections | .info
  | .toggleSections | .toggleComments => false

/-- The action that a command line asks for, if it names a command. -/
def action? (line : String) : Option Action :=
  match Text.words? line with
  | some (name :: _) => (command? name).map (·.action)
  | some [] | none => none

/-- The action and the arguments of a command line that names a command and has no more arguments
than it takes. -/
def invoked? (line : String) : Option (Action × List String) :=
  match Text.words? line with
  | some (name :: args) =>
    (command? name).bind fun c => if c.maxArgs < args.length then none else some (c.action, args)
  | some [] | none => none

/-- A command line that can be run reports an error, or is a command and does what that says. -/
theorem run_eq_ok_invoked (h : run line σ = .ok () σ') :
    (invoked? line = none ∧ ∃ text, error text σ = .ok () σ') ∨
      ∃ a args, invoked? line = some (a, args) ∧ act args a σ = .ok () σ' := by
  unfold run at h
  unfold invoked?
  cases hwords : Text.words? line with
  | none =>
    rw [hwords] at h
    cases h
  | some words =>
    rw [hwords] at h
    cases words with
    | nil => cases h
    | cons name args =>
      dsimp only at h ⊢
      cases hcommand : command? name with
      | none =>
        rw [hcommand] at h
        exact .inl ⟨rfl, _, h⟩
      | some c =>
        rw [hcommand] at h
        dsimp only [Option.bind_some] at h ⊢
        split at h
        · rename_i hmany
          exact .inl ⟨if_pos hmany, _, h⟩
        · rename_i hfew
          exact .inr ⟨c.action, args, if_neg hfew, h⟩

variable {args : List String}

theorem run_of_invoked (h : invoked? line = some (a, args)) : run line = act args a := by
  unfold invoked? at h
  unfold run
  split at h
  · rename_i name words hwords
    obtain ⟨c, hc, h⟩ := Option.bind_eq_some_iff.mp h
    split at h
    · cases h
    · rename_i hfew
      cases h
      rw [hwords]
      dsimp only
      rw [hc]
      dsimp only
      rw [if_neg hfew]
  · cases h
  · cases h

theorem action?_of_invoked (h : invoked? line = some (a, args)) : action? line = some a := by
  unfold invoked? at h
  unfold action?
  split at h
  · obtain ⟨c, hc, h⟩ := Option.bind_eq_some_iff.mp h
    split at h
    · cases h
    · cases h
      rw [hc]
      rfl
  · cases h
  · cases h

theorem run_eq_ok (h : run line σ = .ok () σ') :
    (∃ text, error text σ = .ok () σ') ∨ ∃ args a, action? line = some a ∧
      act args a σ = .ok () σ' := by
  rcases run_eq_ok_invoked h with ⟨-, herror⟩ | ⟨a, args, hinvoked, hact⟩
  · exact .inl herror
  · exact .inr ⟨args, a, action?_of_invoked hinvoked, hact⟩

variable {p₀ : Program} {M : Marks → Prop} {σ σ' : Session} (h₀ : p₀.image.Steady)
  (hM : Marks.Stable M)

include h₀ hM

theorem act_tracks (hload : a.loads = false) (hx : a = .decompile → ∀ m, M m)
    (hσ : Tracks p₀ none M σ) (h : act args a σ = .ok () σ') : Tracks p₀ none M σ' := by
  cases a with
  | load | loadRaw => cases hload
  | decompile =>
    -- An analysis starts without marks and leaves its own, so only what holds of all marks is kept.
    have hall := hx rfl
    have hend := (keeps_runDecompile (fullyIndifferent_tracks h₀) args).of_ok
      { hσ with marks := trivial } h
    exact { hend with marks := hall _ }
  | data form => exact (keeps_runData h₀ hM form args).of_ok hσ h
  | calls =>
    refine runCalls_forgets (J := fun name => Tracks p₀ (some name) M) quiet_tracks
      (fun name => indifferent_tracks h₀ hM) (fun name hs => ?_) (fun name hs => ?_) hσ h
    · exact { hs with calls := rfl }
    · exact { hs with calls := rfl }
  | help | dump | nothing | symbols | leave | sections | info | toggleSections | toggleComments =>
    exact (keeps_act (indifferent_tracks h₀ hM) rfl args).of_ok hσ h

/-- A command line that loads no file leaves the loaded one as it is; unless it decompiles, it also
keeps what is known of the marks. -/
theorem run_tracks (hload : ∀ a, action? line = some a → a.loads = false)
    (hx : action? line = some .decompile → ∀ m, M m) (hσ : Tracks p₀ none M σ)
    (h : run line σ = .ok () σ') : Tracks p₀ none M σ' := by
  rcases run_eq_ok h with ⟨text, herror⟩ | ⟨args, a, ha, hdone⟩
  · exact (quiet_tracks.keeps_error text).of_ok hσ herror
  · exact act_tracks h₀ hM (hload a ha) (fun hdecompile => hx (hdecompile ▸ ha)) hσ hdone

/-- So does a whole history. -/
theorem history_tracks : ∀ {history : List String} {σ : Session},
    (∀ line ∈ history, ∀ a, action? line = some a → a.loads = false) →
    (∀ line ∈ history, action? line = some .decompile → ∀ m, M m) →
    Tracks p₀ none M σ → history.forM run σ = .ok () σ' → Tracks p₀ none M σ' := by
  intro history
  induction history with
  | nil =>
    intro σ _ _ hσ h
    cases h
    exact hσ
  | cons line rest ih =>
    intro σ hload hx hσ h
    obtain ⟨_, σ₁, hline, hrest⟩ := bind_eq_ok.mp h
    have h₁ := run_tracks h₀ hM (hload line (.head _)) (hx line (.head _)) hσ hline
    exact ih (forall_mem_cons.mp hload).2 (forall_mem_cons.mp hx).2 h₁ hrest

end Shell

/-! ## Loading -/

/-- Nothing has been decoded yet, and no instruction is left out. -/
structure Session.Fresh (σ : Session) : Prop where
  code : ∀ p, σ.program = some p → p.code = ∅
  calls : σ.callsSection = none
  fused : σ.marks.fused = []
  forEditor : σ.forEditor = false
  redirect : σ.console.redirect = none

namespace Session.Fresh

open Act

theorem start (options : Options) (files : Files) : (Session.start options files).Fresh := by
  refine ⟨fun p hp => ?_, rfl, rfl, rfl, rfl⟩
  cases hp

theorem quiet : Quiet Fresh := fun _ _ h => { h with }

theorem withProgram (h : σ.Fresh) (hp : p.code = ∅) : Fresh { σ with program := some p } := by
  refine { h with code := fun q hq => ?_ }
  obtain rfl := Option.some.inj hq
  exact hp

/-- A fresh session goes on with the program that it has. -/
theorem tracks (h : σ.Fresh) (hp : σ.program = some p) (hsteady : p.image.Steady) :
    Tracks p none (fun m => m.fused = []) σ := by
  refine ⟨⟨p, hp, Program.Since.refl hsteady fun addr i hi => ?_⟩, h.calls, h.fused, h.forEditor,
    h.redirect⟩
  rw [h.code p hp] at hi
  cases hi

end Session.Fresh

namespace Act

open Session

section SymbolFiles

variable {I : Session → Prop} (hI : ∀ {σ p} name addr, σ.program = some p → I σ →
  I { σ with program := some { p with symbols := p.symbols.define (some name) addr } })

include hI

theorem keeps_addSymbolLine (line : String) : Keeps I (addSymbolLine line) := by
  unfold addSymbolLine
  cases Text.fields line with
  | nil => exact keeps_fail _
  | cons addr rest =>
    dsimp only
    cases Text.hexadecimal? addr with
    | none => exact keeps_fail _
    | some n =>
      cases rest with
      | nil => exact keeps_fail _
      | cons name more => exact keeps_program_bind fun p σ hp h => hI name n hp h

theorem keeps_addSymbolLines : ∀ lines : List String, Keeps I (addSymbolLines lines) := by
  intro lines
  induction lines with
  | nil => exact Keeps.pure ()
  | cons line rest ih => exact (keeps_addSymbolLine hI line).bind fun _ => ih

theorem keeps_addSymbolFile (bytes : List UInt8) : Keeps I (addSymbolFile bytes) := by
  unfold addSymbolFile
  cases utf8? bytes with
  | none => exact keeps_fail _
  | some text => exact keeps_addSymbolLines hI _

end SymbolFiles

/-- A property of sessions that loading does not change, if the loaded program has decoded
nothing. -/
structure Reloadable (I : Session → Prop) : Prop where
  quiet : Quiet I
  file : ∀ {σ} fileName rawType rawBigEndian, I σ →
    I { σ.unload with fileName, rawType, rawBigEndian }
  program : ∀ {σ p}, p.code = ∅ → I σ → I { σ with program := some p }
  symbols : ∀ {σ p} symbols, σ.program = some p → I σ →
    I { σ with program := some { p with symbols } }
  symbolFile : ∀ {σ}, I σ → I { σ with symbolFile := none }

namespace Reloadable

variable {I : Session → Prop}

theorem fresh : Reloadable Fresh where
  quiet := Fresh.quiet
  file _ _ _ h := by
    refine { h with code := fun p hp => ?_, fused := rfl }
    cases hp
  program hcode h := h.withProgram hcode
  symbols {_ p} _ hp h := h.withProgram (h.code p hp)
  symbolFile h := { h with }

variable (hI : Reloadable I)

include hI

theorem keeps_readProgram (f : FileContents) : Keeps I (readProgram f) := by
  refine Keeps.get.bind fun σ => (keeps_ask _).bind fun image => ?_
  dsimp only
  split
  on_goal 1 => refine (hI.quiet.keeps_trace _).bind fun _ => ?_
  all_goals
    refine (keeps_ask _).bind fun target => ?_
    cases target with
    | none => exact (keeps_ask _).bind fun _ => keeps_fail _
    | some target =>
      exact (keeps_ask _).bind fun _ => (hI.quiet.keeps_trace _).bind fun _ => Keeps.pure _

theorem keeps_reportLoadFault (e : Stop) : Keeps I (reportLoadFault e) := by
  unfold reportLoadFault
  split
  · exact (hI.quiet.keeps_error _).bind fun _ => keeps_giveUp
  · exact (hI.quiet.keeps_error _).bind fun _ => keeps_giveUp
  · refine (hI.quiet.keeps_error _).bind fun _ => (hI.quiet.keeps_error _).bind fun _ => ?_
    exact (hI.quiet.keeps_error _).bind fun _ => keeps_giveUp
  · exact Keeps.throw _

theorem keeps_load (name : String) : Keeps I (load name) := by
  refine Keeps.get.bind fun σ => ?_
  cases σ.files.lookup name with
  | none => exact (hI.quiet.keeps_error _).bind fun _ => keeps_giveUp
  | some entry =>
    cases entry with
    | directory => exact (hI.quiet.keeps_error _).bind fun _ => keeps_giveUp
    | file f =>
      have hread : Keeps I (tryCatch (some <$> readProgram f) fun e => do
          let _ ← reportLoadFault e
          return none) :=
        Keeps.tryCatch (Keeps.map some (hI.keeps_readProgram f)) fun e =>
          (hI.keeps_reportLoadFault e).bind fun _ => Keeps.pure _
      intro s hs
      refine endState_bind (hread s hs) fun p? s' hok h => ?_
      cases p? with
      | none => exact h
      | some p =>
        have hp : p.code = ∅ := (readProgram_eq_ok (read_eq_some hok)).2.2.2.1
        refine endState_bind (hI.program hp h) fun _ s₁ _ h₁ => ?_
        refine (Keeps.get.bind fun s₂ => ?_ : Keeps I _) s₁ h₁
        dsimp only
        cases s₂.symbolFile with
        | none => exact Keeps.pure true
        | some bytes =>
          refine Keeps.bind (Keeps.modify fun s hs => hI.symbolFile hs) fun _ => ?_
          exact (keeps_addSymbolFile (fun _ _ => hI.symbols _) bytes).bind fun _ => Keeps.pure true

end Reloadable

/-- A file that is there and can be read is loaded. -/
theorem load_of_lookup {name : String} {f : FileContents}
    (hfile : σ.files.lookup name = some (.file f)) (hread : readProgram f σ = .ok p σ')
    (hsymbols : σ'.symbolFile = none) : load name σ = .ok true { σ' with program := some p } := by
  unfold load
  rw [get_bind_apply, hfile]
  refine bind_eq_ok.mpr ⟨some p, σ', tryCatch_eq_ok.mpr (.inl (map_eq_ok.mpr ⟨p, hread, rfl⟩)), ?_⟩
  refine bind_eq_ok.mpr ⟨(), { σ' with program := some p }, rfl, ?_⟩
  rw [get_bind_apply]
  dsimp only
  rw [hsymbols]
  rfl

end Act

namespace Shell

open Session Act

variable {a : Action}

theorem keeps_loads {I : Session → Prop} (hI : Reloadable I) (ha : a.loads = true)
    (args : List String) : Keeps I (act args a) := by
  have hloadAs : ∀ {change : Session → Session}, (∀ σ name, I σ →
      I { change σ.unload with fileName := some name }) → Keeps I (loadAs change args) := by
    intro change hchange
    unfold loadAs
    split
    · refine Keeps.bind (Keeps.modify fun σ hσ => ?_) fun _ => (hI.keeps_load _).bind fun _ =>
        Keeps.pure ()
      exact hchange σ _ hσ
    · exact hI.quiet.keeps_error _
  cases a with
  | load => exact hloadAs fun σ name h => hI.file (some name) none σ.rawBigEndian h
  | loadRaw type little =>
    rw [act]
    apply hloadAs
    intro σ name h
    have hfile := hI.file (some name) (some type) (if little then false else σ.rawBigEndian) h
    exact hfile
  | help | decompile | data | dump | nothing | symbols | calls | leave | sections | info
  | toggleSections | toggleComments => cases ha

/-- Nothing is decoded or left out by loading. -/
theorem run_fresh {line : String} (ha : action? line = some a) (hload : a.loads = true)
    (hσ : σ.Fresh) (h : run line σ = .ok () σ') : σ'.Fresh := by
  rcases run_eq_ok h with ⟨text, herror⟩ | ⟨args, b, hb, hdone⟩
  · exact (Fresh.quiet.keeps_error text).of_ok hσ herror
  · obtain rfl := Option.some.inj (ha.symm.trans hb)
    exact (keeps_loads Reloadable.fresh hload args).of_ok hσ hdone

end Shell

end Decompiler
