import Decompiler.Proofs.EntryPlaces
/-!
# Which checks are in force at the prompt

A data command accepts every address of the image, a list of calls takes its place from a section,
and both are to be over when the prompt comes back. The section always is. Data stays accepted after
a data command that could not use its place, until another one can (`Shell.run_mode`), so the
addresses that `x` and `dump` take depend on the last data command (`Shell.checks_at_prompt`).
-/

namespace Decompiler

variable {lines addr : Int}

/-- What decides which places are taken. -/
structure Session.Mode where
  data : Bool
  calls : Option String
  interactive : Bool
  deriving DecidableEq, Repr

/-- The mode of a session. -/
def Session.mode (σ : Session) : Mode := ⟨σ.options.data, σ.callsSection, σ.options.interactive⟩

/-- A session is in a mode. -/
def Session.InMode (m : Mode) (σ : Session) : Prop := σ.mode = m

/-- What keeps every mode leaves the one that a session is in. -/
theorem Session.mode_of_ok {α : Type} {x : Act α} {a : α} {σ σ' : Session} (hx : x σ = .ok a σ')
    (h : ∀ m, Keeps (InMode m) x) : σ'.mode = σ.mode :=
  (h σ.mode).of_ok rfl hx

/-! ## What leaves the mode as it is -/

namespace Act

open Session

variable {m : Mode}

/-- Neither listings nor an analysis change the mode, also where files are written for an editor. -/
theorem fullyIndifferent_inMode : FullyIndifferent (InMode m) where
  quiet _ _ h := h
  print text := by
    refine Keeps.modify fun σ h => ?_
    dsimp only
    split
    · exact h
    · exact h
  program _ _ h := h
  place _ h := h
  entry _ h := h
  tint _ h := h
  display _ _ h := h
  analysis _ _ _ _ _ h := h
  editor := .inr fun _ _ _ h => h

theorem indifferent_inMode : Indifferent (InMode m) := fullyIndifferent_inMode.toIndifferent

theorem reloadable_inMode : Reloadable (InMode m) where
  quiet _ _ h := h
  file _ _ _ h := h
  program _ h := h
  symbols _ _ h := h
  symbolFile h := h

end Act

namespace Shell

open Session Act

variable {m : Mode}

/-- Whether an action shows data or calls: only these change what is accepted. -/
def Action.switches : Action → Bool
  | .data _ | .calls => true
  | .load | .loadRaw .. | .help | .decompile | .dump | .nothing | .symbols | .leave
    | .sections | .info
  | .toggleSections | .toggleComments => false

theorem inMode_act {a : Action} (ha : a.switches = false) (args : List String) :
    Keeps (InMode m) (act args a) := by
  cases a with
  | data | calls => cases ha
  | load | loadRaw => exact keeps_loads reloadable_inMode rfl args
  | decompile => exact keeps_runDecompile fullyIndifferent_inMode args
  | help | dump | nothing | symbols | leave | sections | info | toggleSections | toggleComments =>
    exact keeps_act indifferent_inMode rfl args

/-- Opening the shell leaves the mode as it is. -/
theorem inMode_begin (row : Int) : Keeps (InMode m) (begin row) := by
  have hrest : ∀ editor : Session → Editor, Keeps (InMode m) (do
      let s ← get
      print (String.ofList Editor.promptText)
      return editor s) := fun editor =>
    Keeps.get.bind fun s => (indifferent_inMode.print _).bind fun _ => Keeps.pure _
  have hload : ∀ name, Keeps (InMode m) (loadAs id [name]) :=
    fun name => inMode_act (a := .load) rfl [name]
  refine Keeps.get.bind fun σ => Keeps.bind (Keeps.modify fun _ h => h) fun _ => ?_
  dsimp only
  split
  on_goal 1 => refine (hload _).bind fun _ => ?_
  all_goals
    split
    · exact (keeps_runDecompile fullyIndifferent_inMode _).bind fun _ => hrest _
    · exact hrest _

/-! ## Data and calls -/

variable {σ σ' : Session}

/-- The number of lines that the arguments ask for, if it can be read. -/
def linesAsked? (σ : Session) : List String → Option Int
  | [_, count] => Text.decimal? count
  | _ => some σ.options.lines

variable {args : List String} {line : String}

theorem placeAndLines_of_lines (h : linesAsked? σ args = some lines) :
    placeAndLines args σ = .ok lines { σ with entryName := args.head? } := by
  rcases args with _ | ⟨place, _ | ⟨count, _ | ⟨other, more⟩⟩⟩
  · cases h
    rfl
  · cases h
    rfl
  · have hcount : Text.decimal? count = some lines := h
    unfold placeAndLines
    rw [get_bind_apply]
    dsimp only
    rw [hcount]
    rfl
  · cases h
    rfl

theorem linesAsked?_eq_none (h : linesAsked? σ args = none) :
    ∃ place count, args = [place, count] ∧ Text.decimal? count = none := by
  unfold linesAsked? at h
  split at h
  · rename_i place count
    exact ⟨place, count, rfl, h⟩
  · cases h

theorem placeAndLines_state (h : placeAndLines args σ = .ok lines σ') :
    σ' = { σ with entryName := args.head? } := by
  rcases args with _ | ⟨place, _ | ⟨count, _ | ⟨extra, rest⟩⟩⟩
  · cases h
    rfl
  · cases h
    rfl
  · exact (placeAndLines_eq_ok h).2
  · cases h
    rfl

/-- After a data command on a loaded file, data is accepted exactly if the command could not use its
place. -/
theorem runData_mode {p : Program} {form : DataForm} (hp : σ.program = some p)
    (hcalls : σ.callsSection = none) (h : runData form args σ = .ok () σ') :
    σ'.mode = { σ.mode with data := (p.mappedPlace? args.head? (σ.rawType ≠ none)).isNone } := by
  unfold runData whenLoaded at h
  rw [get_bind_apply, if_pos (by rw [hp]; rfl)] at h
  obtain ⟨lines, σ₁, hplace, h⟩ := bind_eq_ok.mp h
  obtain rfl := placeAndLines_state hplace
  unfold acceptData at h
  rw [modify_bind_apply] at h
  obtain ⟨found, σ₂, hfind, h⟩ := bind_eq_ok.mp h
  have hmode : σ₂.mode = { σ.mode with data := true } :=
    mode_of_ok hfind fun _ => indifferent_inMode.keeps_findEntry
  have hfound : found = (p.mappedPlace? args.head? (σ.rawType ≠ none)).isSome :=
    findEntry_data hfind hp hcalls rfl
  cases found with
  | false =>
    -- Nothing comes after a place that cannot be used, so data stays accepted.
    obtain ⟨-, rfl⟩ := pure_eq_ok.mp h
    rw [hmode, ← Option.not_isSome, ← hfound]
    rfl
  | true =>
    have hshown : ∀ {τ : Session} {u : Unit}, τ.mode = { σ.mode with data := true } →
        (forgetPlace >>= fun _ => acceptData false) τ = .ok u σ' →
        σ'.mode = { σ.mode with data := false } := by
      intro τ u hτ hend
      cases hend
      exact congrArg (fun m : Mode => { m with data := false }) hτ
    rw [← Option.not_isSome, ← hfound]
    cases form with
    | texts =>
      obtain ⟨_, σ₃, hdump, h⟩ := bind_eq_ok.mp h
      exact hshown ((indifferent_inMode.keeps_dumpTexts lines).of_ok hmode hdump) h
    | words width =>
      obtain ⟨_, σ₃, hdump, h⟩ := bind_eq_ok.mp h
      exact hshown ((indifferent_inMode.keeps_dumpWords lines width).of_ok hmode hdump) h

/-- The section of a list of calls is forgotten, whether or not it was found. -/
theorem runCalls_mode (hcalls : σ.callsSection = none) (h : runCalls args σ = .ok () σ') :
    σ'.mode = σ.mode := by
  have hnone : σ.mode = { σ.mode with calls := none } := by rw [← hcalls]; rfl
  refine runCalls_forgets (I := InMode σ.mode)
    (J := fun name => InMode { σ.mode with calls := some name })
    indifferent_inMode.quiet (fun _ => indifferent_inMode) (fun {s} name hs => ?_)
    (fun {s} name hs => ?_) rfl h
  · exact congrArg (fun m : Mode => { m with calls := some name }) hs
  · rw [hnone]
    exact congrArg (fun m : Mode => { m with calls := none }) hs

/-! ## Command lines -/

/-- Whether a command line is refused as a data command: it is one, a file is loaded, and its place
cannot be used. Other command lines are not asked. -/
def refused? (line : String) (σ : Session) : Option Bool :=
  match invoked? line, σ.program with
  | some (.data _, args), some p => some (p.mappedPlace? args.head? (σ.rawType ≠ none)).isNone
  | _, _ => none

/-- One command line: a data command leaves data accepted or not as its place was refused or not,
and nothing else changes the mode. -/
theorem run_mode (hcalls : σ.callsSection = none) (h : run line σ = .ok () σ') :
    σ'.mode = { σ.mode with data := (refused? line σ).getD σ.options.data } := by
  rcases run_eq_ok_invoked h with ⟨hnone, text, herror⟩ | ⟨a, args, hinvoked, hact⟩
  · have hunasked : refused? line σ = none := by simp only [refused?, hnone]
    rw [hunasked]
    exact mode_of_ok herror fun _ => indifferent_inMode.quiet.keeps_error text
  · cases hswitches : a.switches with
    | false =>
      -- Other actions keep the mode whatever they do, and are not asked.
      have hunasked : refused? line σ = none := by
        unfold refused?
        rw [hinvoked]
        cases a with
        | data | calls => cases hswitches
        | _ => rfl
      rw [hunasked]
      exact mode_of_ok hact fun _ => inMode_act hswitches args
    | true =>
      cases a with
      | data form =>
        cases hp : σ.program with
        | none =>
          have hunasked : refused? line σ = none := by simp only [refused?, hinvoked, hp]
          rw [hunasked]
          rw [act, runData, whenLoaded, get_bind_apply, if_neg (by rw [hp]; decide)] at hact
          exact mode_of_ok hact fun _ => indifferent_inMode.quiet.keeps_error _
        | some p =>
          have hasked : refused? line σ = some
              (p.mappedPlace? args.head? (σ.rawType ≠ none)).isNone := by
            simp only [refused?, hinvoked, hp]
          rw [hasked]
          exact runData_mode hp hcalls hact
      | calls =>
        have hunasked : refused? line σ = none := by simp only [refused?, hinvoked]
        rw [hunasked]
        exact runCalls_mode hcalls hact
      | load | loadRaw | help | decompile | dump | nothing | symbols | leave | sections | info
        | toggleSections
      | toggleComments => cases hswitches

/-- What the data commands among some command lines found, in their order: whether their places were
refused. -/
def refusals : List String → Session → List Bool
  | [], _ => []
  | line :: rest, σ =>
    match run line σ with
    | .ok _ σ' => (refused? line σ).toList ++ refusals rest σ'
    | .error _ _ => (refused? line σ).toList

theorem refusals_cons {rest : List String} (h : run line σ = .ok () σ') :
    refusals (line :: rest) σ = (refused? line σ).toList ++ refusals rest σ' := by
  simp only [refusals, h]

/-- All command lines: data is accepted as the last data command left it. -/
theorem history_mode : ∀ {lines : List String} {σ : Session}, σ.callsSection = none →
    lines.forM run σ = .ok () σ' →
    σ'.mode = { σ.mode with data := (refusals lines σ).getLast?.getD σ.options.data } := by
  intro lines
  induction lines with
  | nil =>
    intro σ _ h
    cases h
    rfl
  | cons line rest ih =>
    intro σ hcalls h
    obtain ⟨_, σ₁, hline, hrest⟩ := bind_eq_ok.mp h
    have hmode := run_mode hcalls hline
    have hcalls₁ : σ₁.callsSection = none := (congrArg Mode.calls hmode).trans hcalls
    have hdata₁ : σ₁.options.data = (refused? line σ).getD σ.options.data :=
      congrArg Mode.data hmode
    -- The last data command is among the rest, or it is this line, or there is none.
    rw [ih hcalls₁ hrest, hmode, hdata₁, refusals_cons hline, List.getLast?_append]
    cases (refusals rest σ₁).getLast? with
    | some b => rfl
    | none => cases refused? line σ <;> rfl

/-! ## Code at the prompt -/

/-- Without data, code is not shown at an address that is not executable: the command says so and
does nothing else. -/
theorem run_notExecutable {a : Action} {p : Program} (hmode : σ.mode = ⟨false, none, true⟩)
    (hline : invoked? line = some (a, args)) (ha : a = .decompile ∨ a = .dump)
    (hcount : ∀ place count, args = [place, count] → (Text.decimal? count).isSome)
    (hp : σ.program = some p) (hplace : p.place args.head? (σ.rawType ≠ none) = .ok addr)
    (hexec : (p.image.checkAddr addr).1.2 = false) :
    ∃ τ, run line σ = .ok () τ ∧
      τ.console = { σ.console with err := σ.console.err ++ notExecutableText addr } := by
  have hdata : σ.options.data = false := congrArg Mode.data hmode
  have hcalls : σ.callsSection = none := congrArg Mode.calls hmode
  have hprompt : σ.options.interactive = true := congrArg Mode.interactive hmode
  rw [run_of_invoked hline]
  rcases ha with rfl | rfl
  · obtain ⟨τ, hfind, hconsole⟩ := findEntry_notExecutable
      (σ := { σ with entryName := args.head? }.clearMarks) hp hcalls hdata hprompt hplace hexec
    refine ⟨τ, ?_, hconsole⟩
    rw [act, runDecompile, whenLoaded_of_some hp, modify_bind_apply, bind_of_ok hfind]
    rfl
  · obtain ⟨lines, hlines⟩ : ∃ lines, linesAsked? σ args = some lines := by
      refine Option.ne_none_iff_exists'.mp fun hnone => ?_
      obtain ⟨place, count, hargs, hunread⟩ := linesAsked?_eq_none hnone
      have hread := hcount place count hargs
      simp [hunread] at hread
    obtain ⟨τ, hfind, hconsole⟩ := findEntry_notExecutable
      (σ := { σ with entryName := args.head? }) hp hcalls hdata hprompt hplace hexec
    refine ⟨τ, ?_, hconsole⟩
    rw [act, runDump, whenLoaded_of_some hp, bind_of_ok (placeAndLines_of_lines hlines),
      bind_of_ok hfind]
    rfl

/-- What is accepted at the prompt of a session that began with all checks. No section is left over
from a list of calls. Data is accepted exactly if the last data command that looked for a place
could not use it. Unless it is, `x` and `dump` refuse every address that is not executable. -/
theorem checks_at_prompt {s s₀ : Session} {row : Int} {editor : Editor} {lines : List String}
    (hs : s.mode = ⟨false, none, true⟩) (hopen : begin row s = .ok editor s₀)
    (hlines : lines.forM run s₀ = .ok () σ) :
    σ.callsSection = none ∧
    (σ.options.data = true ↔ (refusals lines s₀).getLast? = some true) ∧
    ((refusals lines s₀).getLast? ≠ some true →
      ∀ line a args p addr, invoked? line = some (a, args) → a = .decompile ∨ a = .dump →
        (∀ place count, args = [place, count] → (Text.decimal? count).isSome) →
        σ.program = some p → p.place args.head? (σ.rawType ≠ none) = .ok addr →
        (p.image.checkAddr addr).1.2 = false → ∃ τ, run line σ = .ok () τ ∧
          τ.console = { σ.console with err := σ.console.err ++ notExecutableText addr }) := by
  have hs₀ : s₀.mode = ⟨false, none, true⟩ := (inMode_begin row).of_ok hs hopen
  have hmode := history_mode (congrArg Mode.calls hs₀) hlines
  have hfalse : s₀.options.data = false := congrArg Mode.data hs₀
  have hdata : σ.options.data = (refusals lines s₀).getLast?.getD false := by
    rw [← hfalse]
    exact congrArg Mode.data hmode
  have hiff : σ.options.data = true ↔ (refusals lines s₀).getLast? = some true := by
    rw [hdata]
    cases (refusals lines s₀).getLast? <;> simp
  refine ⟨(congrArg Mode.calls hmode).trans (congrArg Mode.calls hs₀), hiff, ?_⟩
  intro haccepted line a args p addr hline ha hcount hp hplace hexec
  have hoff : σ.mode = ⟨false, none, true⟩ := by
    rw [hmode, hs₀, hfalse, ← hdata, Bool.eq_false_iff.mpr (hiff.not.mpr haccepted)]
  exact run_notExecutable hoff hline ha hcount hp hplace hexec

/-! ### A file with code and data -/

/-- An ELF file with one section of code, at 0x100, and one of data, at 0x200. -/
def sectionedElf : Elf where
  machine := "x86"
  wordBits := 32
  bigEndian := false
  entry := 0x100
  sections := [⟨".text", 0x100, 2, 4, 6, [], []⟩, ⟨".data", 0x200, 2, 6, 3, [], []⟩]
  file := [0x7f, 0x45, 0x4c, 0x46, 0x90, 0x90, 0x90, 0x90]
  seen := []

/-- The file as it is stored. -/
def sectionedFile : FileContents where
  bytes := sectionedElf.file
  decoder := ⟨some .x86, [OneByte.run.insn 0x100, OneByte.ret.insn 0x101, OneByte.run.insn 0x200]⟩
  elf := some sectionedElf
  pe := none

/-- A session that can reach the file, before the shell is opened. -/
def sectionedStart : Session :=
  Session.start { Options.standard with interactive := true, color := false }
    ⟨[("f", .file sectionedFile)]⟩

/-- The session at the first prompt. -/
def sectionedOpen : Session :=
  { sectionedStart with
    console := { sectionedStart.console with out := String.ofList Editor.promptText } }

/-- The program in the file. -/
def sectionedProgram : Program where
  image := .elf sectionedElf
  target := ⟨.x86, .bits32, false⟩
  decoder := sectionedFile.decoder
  code := ∅
  symbols := Symbols.empty

/-- The session after the file was loaded. -/
def sectionedLoaded : Session :=
  { sectionedOpen with fileName := some "f", program := some sectionedProgram }

theorem exists_begin_sectioned : ∃ editor, begin 1 sectionedStart = .ok editor sectionedOpen :=
  ⟨_, rfl⟩

theorem load_sectioned : run "load f" sectionedOpen = .ok () sectionedLoaded := by
  have hinvoked : invoked? "load f" = some (.load, ["f"]) := by decide
  have hread : readProgram sectionedFile { sectionedOpen with fileName := some "f" } =
      .ok sectionedProgram { sectionedOpen with fileName := some "f" } := rfl
  rw [run_of_invoked hinvoked]
  refine bind_eq_ok.mpr ⟨(), { sectionedOpen with fileName := some "f" }, rfl, ?_⟩
  exact bind_eq_ok.mpr ⟨true, sectionedLoaded,
    load_of_lookup (lookup_alone sectionedFile) hread rfl, rfl⟩

/-- Command lines that can be run once the file is loaded can be run from the first prompt, with
loading it first. -/
theorem forM_sectioned {lines : List String} (h : ranAll? lines sectionedLoaded = some σ) :
    ("load f" :: lines).forM run sectionedOpen = .ok () σ :=
  bind_eq_ok.mpr ⟨(), sectionedLoaded, load_sectioned, forM_of_ranAll? h⟩

/-- What the program of a session says of a place: its address, and whether that is executable. -/
def placeSeen? (text : String) (σ : Session) : Option (Int × Bool) :=
  σ.program.bind fun p => (p.place (some text) (σ.rawType ≠ none)).toOption.map fun addr =>
    (addr, (p.image.checkAddr addr).1.2)

theorem exists_of_placeSeen? {text : String} {executable : Bool}
    (h : placeSeen? text σ = some (addr, executable)) :
    ∃ p, σ.program = some p ∧ p.place (some text) (σ.rawType ≠ none) = .ok addr ∧
      (p.image.checkAddr addr).1.2 = executable := by
  obtain ⟨p, hp, h⟩ := Option.bind_eq_some_iff.mp h
  obtain ⟨n, hn, h⟩ := Option.map_eq_some_iff.mp h
  cases h
  exact ⟨p, hp, OneByte.toOption_eq_some hn, rfl⟩

/-- After a data command that was refused and one that was not, code in the section of data is
refused. -/
theorem checks_at_prompt_restored :
    ∃ editor s₀ σ τ, begin 1 sectionedStart = .ok editor s₀ ∧
      ["load f", "db 0x999", "db 0x200 1"].forM run s₀ = .ok () σ ∧
      refusals ["load f", "db 0x999", "db 0x200 1"] s₀ = [true, false] ∧ σ.options.data ≠ true ∧
      run "dump 0x200 1" σ = .ok () τ ∧
      τ.console = { σ.console with err := σ.console.err ++ notExecutableText 0x200 } := by
  obtain ⟨editor, hopen⟩ := exists_begin_sectioned
  have hseen : (ranAll? ["db 0x999", "db 0x200 1"] sectionedLoaded).bind (placeSeen? "0x200") =
      some (0x200, false) := by
    decide +kernel
  obtain ⟨σ, hσ, hplace⟩ := Option.bind_eq_some_iff.mp hseen
  obtain ⟨p, hp, hplace, hexec⟩ := exists_of_placeSeen? hplace
  have hlines := forM_sectioned hσ
  have hrefusals : refusals ["load f", "db 0x999", "db 0x200 1"] sectionedOpen = [true, false] := by
    rw [refusals_cons load_sectioned]
    decide +kernel
  have hlast : (refusals ["load f", "db 0x999", "db 0x200 1"] sectionedOpen).getLast? ≠
      some true := by
    rw [hrefusals]
    decide
  obtain ⟨-, hdata, hrefuses⟩ := checks_at_prompt rfl hopen hlines
  obtain ⟨τ, hrun, hconsole⟩ :=
    hrefuses hlast "dump 0x200 1" .dump ["0x200", "1"] p 0x200 (by decide) (.inr rfl)
    (by rintro place count h; cases h; decide) hp hplace hexec
  exact ⟨editor, sectionedOpen, σ, τ, hopen, hlines, hrefusals, hdata.not.mpr hlast, hrun, hconsole⟩

/-- After a data command that was refused, data is accepted at the prompt and is shown as code. -/
theorem data_accepted_at_prompt :
    ∃ editor s₀ σ p τ, begin 1 sectionedStart = .ok editor s₀ ∧
      sectionedStart.options.data = false ∧
      ["load f", "db 0x999"].forM run s₀ = .ok () σ ∧ σ.options.data = true ∧
      σ.program = some p ∧ (p.image.checkAddr 0x200).1.2 = false ∧ run "dump 0x200 1" σ = .ok () τ ∧
      τ.console.out = σ.console.out ++ ".data                [ 0x200 - 0x201 - 1 ]\n0x200: NOP \n" ∧
      τ.console.err = σ.console.err := by
  obtain ⟨editor, hopen⟩ := exists_begin_sectioned
  have hseen : (ranAll? ["db 0x999"] sectionedLoaded).bind (placeSeen? "0x200") =
      some (0x200, false) := by
    decide +kernel
  obtain ⟨σ, hσ, hplace⟩ := Option.bind_eq_some_iff.mp hseen
  obtain ⟨p, hp, -, hexec⟩ := exists_of_placeSeen? hplace
  have hdata : (ranAll? ["db 0x999"] sectionedLoaded).map (·.options.data) = some true := by
    decide +kernel
  have hdump : (ranAll? ["db 0x999"] sectionedLoaded).bind (fun σ =>
      (ranAll? ["dump 0x200 1"] σ).map fun τ =>
      decide (τ.console.out = σ.console.out ++
        ".data                [ 0x200 - 0x201 - 1 ]\n0x200: NOP \n" ∧
        τ.console.err = σ.console.err)) = some true := by
    decide +kernel
  rw [hσ] at hdata hdump
  obtain ⟨τ, hτ, hshown⟩ := Option.map_eq_some_iff.mp hdump
  obtain ⟨_, τ', hrun, hend⟩ := bind_eq_ok.mp (forM_of_ranAll? hτ)
  obtain ⟨-, rfl⟩ := pure_eq_ok.mp hend
  obtain ⟨hout, herr⟩ := of_decide_eq_true hshown
  exact ⟨editor, sectionedOpen, σ, p, τ', hopen, rfl, forM_sectioned hσ, Option.some.inj hdata, hp,
    hexec, hrun, hout, herr⟩

end Shell

end Decompiler
