import Decompiler.Proofs.Dumps
/-!
# Which places are taken

A place that the user names is looked up in the program (`Program.place`) and the address is
checked. While data is accepted every address of the image is taken (`Act.findEntry_data`);
otherwise an address that is not executable is refused with a message, and nothing else is written
(`Act.findEntry_notExecutable`). At the prompt a search always ends with an answer, unless the place
looks like an address and is no numeral (`Act.findEntry_answers`, `Act.findEntry_of_misspelt`).
-/

namespace Decompiler

namespace Program

variable {p : Program} {text : Option String} {raw : Bool}

/-- The address of a place that the user names: the entry point of the file, or what the text
resolves to. -/
def place (p : Program) (text : Option String) (raw : Bool) : Except Fault Int :=
  if text = some "EP" then .ok p.image.entryPoint else p.resolve text raw

/-- The address of a place, if it is one of the image. -/
def mappedPlace? (p : Program) (text : Option String) (raw : Bool) : Option Int :=
  (p.place text raw).toOption.filter fun addr => (p.image.checkAddr addr).1.1

/-- The program after an address was checked: the section in which it is may be remembered. -/
def checked (p : Program) (addr : Int) : Program := { p with image := (p.image.checkAddr addr).2 }

theorem isSome_mappedPlace? {addr : Int} (hplace : p.place text raw = .ok addr) :
    (p.mappedPlace? text raw).isSome = (p.image.checkAddr addr).1.1 := by
  cases hmapped : (p.image.checkAddr addr).1.1 <;>
    simp [mappedPlace?, hplace, hmapped, Except.toOption]

theorem mappedPlace?_of_fault {e : Fault} (hplace : p.place text raw = .error e) :
    p.mappedPlace? text raw = none := by
  simp [mappedPlace?, hplace, Except.toOption]

end Program

variable {addr : Int}

/-- A section that was found once is found again, for it is remembered. -/
theorem Elf.isSome_sectionAt_again {e : Elf} (h : (e.sectionAt addr).1.isSome = true) :
    ((e.sectionAt addr).2.sectionAt addr).1.isSome = true := by
  unfold sectionAt at h ⊢
  cases hseen : e.seen.find? (·.contains addr) with
  | some s => simp [hseen]
  | none =>
    rw [hseen] at h
    cases hfound : e.sections.find? (·.contains addr) with
    | none => simp [hfound] at h
    | some s => simp [List.find?_append, hseen, List.find?_some hfound]

theorem Pe.isSome_sectionAt_again {p : Pe} (h : (p.sectionAt addr).1.isSome = true) :
    ((p.sectionAt addr).2.sectionAt addr).1.isSome = true := by
  unfold sectionAt at h ⊢
  cases hseen : p.seen.find? (·.holds (addr - p.base)) with
  | some s => simp [hseen]
  | none =>
    rw [hseen] at h
    cases hfound : sectionByRva? (addr - p.base) p.sections with
    | none => simp [hfound] at h
    | some s =>
      -- The section that is remembered may be too short for the address; then it is found in the
      -- table again.
      dsimp only
      cases List.find? (·.holds (addr - p.base)) (p.seen ++ [s]) with
      | some t => rfl
      | none => simp [hfound]

/-- An address of the image is in a section, also after it was checked. -/
theorem Image.isSome_span_checkAddr (img : Image) (h : (img.checkAddr addr).1.1 = true) :
    ((img.checkAddr addr).2.span addr).1.isSome = true := by
  cases img with
  | raw r => rfl
  | elf e =>
    show (Option.map _ _).isSome = true
    rw [Option.isSome_map]
    exact Elf.isSome_sectionAt_again h
  | pe p =>
    show (Option.map _ _).isSome = true
    rw [Option.isSome_map]
    exact Pe.isSome_sectionAt_again h

namespace Act

variable {σ : Session} {p : Program} {addr : Int}

/-! ## The parts of a search -/

section Named

variable (hp : σ.program = some p) (hcalls : σ.callsSection = none)

include hp hcalls

/-- A place is looked up in the program. Nothing but the name of the place may change: the default
is written down. -/
theorem namedAddress_of_place (hplace : p.place σ.entryName (σ.rawType ≠ none) = .ok addr) :
    ∃ τ, namedAddress σ = .ok addr τ ∧ τ.program = some p ∧ τ.options = σ.options ∧
      τ.console = σ.console := by
  unfold namedAddress
  rw [get_bind_apply, bind_of_ok (program_eq_ok.mpr ⟨hp, rfl⟩), hcalls]
  dsimp only
  unfold Program.place at hplace
  by_cases hentry : σ.entryName = some "EP"
  · rw [if_pos hentry] at hplace
    rw [if_pos hentry, Except.ok.inj hplace]
    exact ⟨σ, rfl, hp, rfl, rfl⟩
  · rw [if_neg hentry] at hplace
    rw [if_neg hentry, bind_of_ok (ask_eq_ok.mpr ⟨hplace, rfl⟩)]
    split
    · exact ⟨_, rfl, hp, rfl, rfl⟩
    · exact ⟨_, rfl, hp, rfl, rfl⟩

theorem namedAddress_of_fault {e : Fault}
    (hplace : p.place σ.entryName (σ.rawType ≠ none) = .error e) :
    namedAddress σ = .error (.fault e) σ := by
  have hentry : σ.entryName ≠ some "EP" := by
    intro h
    rw [Program.place, if_pos h] at hplace
    cases hplace
  rw [Program.place, if_neg hentry] at hplace
  unfold namedAddress
  rw [get_bind_apply, bind_of_ok (program_eq_ok.mpr ⟨hp, rfl⟩), hcalls]
  dsimp only
  rw [if_neg hentry, hplace]
  rfl

end Named

/-- An address passes the check if it is executable or data is accepted, and if it is one of the
image. -/
theorem checkAddress_eq (hp : σ.program = some p) (addr : Int) :
    checkAddress addr σ =
      if σ.options.data = false ∧ (p.image.checkAddr addr).1.2 = false then
        .error (.fault (.notExecutable addr)) { σ with program := some (p.checked addr) }
      else if (p.image.checkAddr addr).1.1 = false then
        .error (.fault (.notMapped addr)) { σ with program := some (p.checked addr) }
      else .ok () { σ with program := some (p.checked addr) } := by
  unfold checkAddress Program.checked
  rw [bind_of_ok (program_eq_ok.mpr ⟨hp, rfl⟩)]
  rcases p.image.checkAddr addr with ⟨⟨mapped, executable⟩, image⟩
  dsimp only
  rw [modify_bind_apply, get_bind_apply]
  dsimp only
  cases σ.options.data <;> cases executable <;> cases mapped <;> rfl

variable {e : Stop} {τ : Session}

/-- A search that fails is left to the report. -/
theorem findEntry_of_error (h : (namedAddress >>= fun addr => checkAddress addr) σ = .error e τ) :
    findEntry σ = reportPlaceFault e τ := by
  refine tryCatch_of_error ?_
  cases hnamed : namedAddress σ with
  | error e' τ' =>
    rw [bind_of_error hnamed] at h
    cases h
    exact bind_of_error hnamed
  | ok addr τ' =>
    rw [bind_of_ok hnamed] at h ⊢
    exact bind_of_error h

theorem reportPlaceFault_eq_ok {b : Bool} {σ' : Session} (h : reportPlaceFault e σ = .ok b σ') :
    b = false := by
  cases b with
  | false => rfl
  | true => exact (reportPlaceFault_ne_true e h).elim

/-! ## Searches -/

/-- What is written when a place that is not executable is refused. -/
def notExecutableText (addr : Int) : String :=
  "error: " ++ ("the address 0x" ++ Text.hexSigned 1 addr ++ " is not in an executable section") ++
    "\n"

theorem giveUp_of_prompt (hprompt : σ.options.interactive = true) : giveUp σ = .ok false σ := by
  unfold giveUp
  rw [get_bind_apply, if_pos hprompt]
  rfl

theorem reportPlaceFault_notExecutable (hprompt : σ.options.interactive = true) (addr : Int) :
    reportPlaceFault (.fault (.notExecutable addr)) σ = .ok false
      { σ with console := { σ.console with err := σ.console.err ++ notExecutableText addr } } := by
  rw [notExecutableText, ← String.append_assoc]
  refine bind_eq_ok.mpr ⟨(), _, rfl, giveUp_of_prompt ?_⟩
  exact hprompt

/-- While data is accepted, a place is taken if it names an address of the image. -/
theorem findEntry_data {b : Bool} {σ' : Session} (h : findEntry σ = .ok b σ')
    (hp : σ.program = some p) (hcalls : σ.callsSection = none) (hdata : σ.options.data = true) :
    b = (p.mappedPlace? σ.entryName (σ.rawType ≠ none)).isSome := by
  cases hplace : p.place σ.entryName (σ.rawType ≠ none) with
  | error e =>
    rw [findEntry_of_error (bind_of_error (namedAddress_of_fault hp hcalls hplace))] at h
    rw [Program.mappedPlace?_of_fault hplace]
    exact reportPlaceFault_eq_ok h
  | ok addr =>
    obtain ⟨τ, hnamed, hτ, hoptions, -⟩ := namedAddress_of_place hp hcalls hplace
    have hcheck := checkAddress_eq hτ addr
    rw [if_neg (by simp [hoptions, hdata])] at hcheck
    cases hmapped : (p.image.checkAddr addr).1.1 with
    | false =>
      rw [if_pos hmapped] at hcheck
      rw [findEntry_of_error ((bind_of_ok hnamed).trans hcheck)] at h
      rw [Program.isSome_mappedPlace? hplace, hmapped]
      exact reportPlaceFault_eq_ok h
    | true =>
      rw [if_neg (by simp [hmapped])] at hcheck
      rw [Program.isSome_mappedPlace? hplace, hmapped]
      rcases tryCatch_eq_ok.mp h with h | ⟨e, τ', h, -⟩
      · rw [bind_of_ok hnamed, bind_of_ok hcheck] at h
        cases h
        rfl
      · rw [bind_of_ok hnamed, bind_of_ok hcheck] at h
        cases h

/-- Otherwise an address that is not executable is refused, and only that is reported. -/
theorem findEntry_notExecutable (hp : σ.program = some p) (hcalls : σ.callsSection = none)
    (hdata : σ.options.data = false) (hprompt : σ.options.interactive = true)
    (hplace : p.place σ.entryName (σ.rawType ≠ none) = .ok addr)
    (hexec : (p.image.checkAddr addr).1.2 = false) :
    ∃ τ, findEntry σ = .ok false τ ∧
      τ.console = { σ.console with err := σ.console.err ++ notExecutableText addr } := by
  obtain ⟨τ, hnamed, hτ, hoptions, hconsole⟩ := namedAddress_of_place hp hcalls hplace
  have hcheck := checkAddress_eq hτ addr
  rw [if_pos ⟨by rw [hoptions, hdata], hexec⟩] at hcheck
  rw [← hoptions] at hprompt
  rw [findEntry_of_error ((bind_of_ok hnamed).trans hcheck), ← hconsole]
  refine ⟨_, reportPlaceFault_notExecutable ?_ addr, rfl⟩
  exact hprompt

/-! ## Searches that end -/

/-- The faults of a place that cannot be used, which are reported. -/
def reportsFault : Fault → Bool
  | .sectionNotFound _ | .symbolNotFound _ | .notExecutable _ | .notMapped _ => true
  | _ => false

/-- The place that is looked for is written like an address, and is no numeral. -/
structure Misspelt (σ : Session) (text : String) : Prop where
  noSection : σ.callsSection = none
  name : σ.entryName = some text
  marked : Text.startsWith text "0x" = true
  unread : Text.hexadecimal? text = none

/-- At the prompt a fault of the place is reported, and that is all. -/
theorem reportPlaceFault_answers {e : Fault} (he : reportsFault e = true)
    (hprompt : σ.options.interactive = true) :
    ∃ τ, reportPlaceFault (.fault e) σ = .ok false τ := by
  have herror : ∀ text : String, ∃ τ, error text σ = .ok () τ ∧ τ.options.interactive = true :=
    fun _ => ⟨_, rfl, hprompt⟩
  have hgiveUp : ∀ text : String, ∃ τ, (error text >>= fun _ => giveUp) σ = .ok false τ := by
    intro text
    obtain ⟨τ, hτ, hτprompt⟩ := herror text
    exact ⟨τ, bind_eq_ok.mpr ⟨(), τ, hτ, giveUp_of_prompt hτprompt⟩⟩
  cases e with
  | sectionNotFound name | notExecutable addr | notMapped addr => exact hgiveUp _
  | symbolNotFound name =>
    obtain ⟨τ, hτ, hτprompt⟩ := herror ("symbol " ++ name ++ " not found")
    refine ⟨τ, bind_eq_ok.mpr ⟨(), τ, hτ, ?_⟩⟩
    rw [get_bind_apply, if_pos hτprompt]
    rfl
  | _ => cases he

/-- A text that names no address is not the name of a symbol, or is misspelt. -/
theorem resolve_eq_error {name : Option String} {raw : Bool} {e : Fault}
    (h : p.resolve name raw = .error e) :
    reportsFault e = true ∨
      ∃ text, name = some text ∧ Text.startsWith text "0x" = true ∧ Text.hexadecimal? text = none ∧
        e = .badNumeral text := by
  unfold Program.resolve at h
  cases name with
  | none =>
    dsimp only at h
    split at h
    · cases h
    · split at h
      · cases h
      · cases h
        exact .inl rfl
  | some text =>
    dsimp only at h
    split at h
    · rename_i hmarked
      split at h
      · cases h
      · rename_i hunread
        cases h
        exact .inr ⟨text, rfl, hmarked, hunread, rfl⟩
    · split at h
      · cases h
      · cases h
        exact .inl rfl

theorem sectionStart_eq_error {img : Image} {name : String} {e : Fault}
    (h : img.sectionStart name = .error e) : reportsFault e = true := by
  unfold Image.sectionStart at h
  dsimp only at h
  split at h
  · split at h
    · cases h
      rfl
    · cases h
  · cases h
    rfl

section

variable (hp : σ.program = some p)
include hp

/-- A place gives an address, or a fault that is reported, or is misspelt. -/
theorem namedAddress_cases :
    (∃ addr τ, namedAddress σ = .ok addr τ ∧ τ.program = some p ∧ τ.options = σ.options) ∨
      ∃ e, namedAddress σ = .error (.fault e) σ ∧
        (reportsFault e = true ∨ ∃ text, Misspelt σ text ∧ e = .badNumeral text) := by
  cases hcalls : σ.callsSection with
  | some sec =>
    have hnamed : namedAddress σ = ask (p.image.sectionStart sec) σ := by
      unfold namedAddress
      rw [get_bind_apply, bind_of_ok (program_eq_ok.mpr ⟨hp, rfl⟩), hcalls]
    rw [hnamed]
    cases hstart : p.image.sectionStart sec with
    | ok addr => exact .inl ⟨addr, σ, rfl, hp, rfl⟩
    | error e => exact .inr ⟨e, rfl, .inl (sectionStart_eq_error hstart)⟩
  | none =>
    cases hplace : p.place σ.entryName (σ.rawType ≠ none) with
    | ok addr =>
      obtain ⟨τ, hnamed, hτ, hoptions, -⟩ := namedAddress_of_place hp hcalls hplace
      exact .inl ⟨addr, τ, hnamed, hτ, hoptions⟩
    | error e =>
      refine .inr ⟨e, namedAddress_of_fault hp hcalls hplace, ?_⟩
      unfold Program.place at hplace
      split at hplace
      · cases hplace
      · rcases resolve_eq_error hplace with he | ⟨text, hname, hmarked, hunread, rfl⟩
        · exact .inl he
        · exact .inr ⟨text, ⟨hcalls, hname, hmarked, hunread⟩, rfl⟩

theorem checkAddress_eq_error (h : checkAddress addr σ = .error e τ) :
    τ.options = σ.options ∧ ∃ f, e = .fault f ∧ reportsFault f = true := by
  rw [checkAddress_eq hp] at h
  split at h
  · cases h
    exact ⟨rfl, _, rfl, rfl⟩
  · split at h
    · cases h
      exact ⟨rfl, _, rfl, rfl⟩
    · cases h

theorem findEntry_of_misspelt {text : String} (h : Misspelt σ text) :
    findEntry σ = .error (.fault (.badNumeral text)) σ := by
  have hplace : p.place σ.entryName (σ.rawType ≠ none) = .error (.badNumeral text) := by
    -- The name of the entry point of the file is not written like an address.
    have hnot : text ≠ "EP" := by
      rintro rfl
      cases h.marked
    simp [Program.place, h.name, hnot, Program.resolve, h.marked, h.unread]
  rw [findEntry_of_error (bind_of_error (namedAddress_of_fault hp h.noSection hplace))]
  rfl

/-- At the prompt a search for a place that is not misspelt has an answer. -/
theorem findEntry_answers (hprompt : σ.options.interactive = true) (h : ∀ text, ¬ Misspelt σ text) :
    ∃ b τ, findEntry σ = .ok b τ := by
  rcases namedAddress_cases hp with ⟨addr, τ, hnamed, hτ, hoptions⟩ | ⟨e, hnamed,
    he | ⟨text, hmisspelt, -⟩⟩
  · cases hcheck : checkAddress addr τ with
    | ok u τ' =>
      obtain ⟨τ'', hmark⟩ : ∃ τ'', mark (fun m => { m with entry := addr }) τ' = .ok () τ'' :=
        ⟨_, rfl⟩
      refine ⟨true, τ'', tryCatch_eq_ok.mpr (.inl ?_)⟩
      rw [bind_of_ok hnamed, bind_of_ok hcheck, bind_of_ok hmark]
      rfl
    | error e τ' =>
      obtain ⟨hsame, f, rfl, hf⟩ := checkAddress_eq_error hτ hcheck
      rw [findEntry_of_error ((bind_of_ok hnamed).trans hcheck)]
      exact ⟨false, reportPlaceFault_answers hf (by rw [hsame, hoptions, hprompt])⟩
  · rw [findEntry_of_error (bind_of_error hnamed)]
    exact ⟨false, reportPlaceFault_answers he hprompt⟩
  · exact absurd hmisspelt (h text)

/-- The place that a search has found is in a section. -/
theorem exists_span_of_findEntry (h : findEntry σ = .ok true τ) :
    ∃ q span q', τ.program = some q ∧ q.span τ.marks.entry = (some span, q') := by
  obtain ⟨addr, σ₁, σ₂, hnamed, hcheck, rfl⟩ := findEntry_eq_true h
  have hσ₁ : σ₁.program = some p := by
    rcases namedAddress_cases hp with ⟨addr', τ, hnamed', hτ, -⟩ | ⟨e, hnamed', -⟩
    · rw [hnamed] at hnamed'
      cases hnamed'
      exact hτ
    · rw [hnamed] at hnamed'
      cases hnamed'
  rw [checkAddress_eq hσ₁] at hcheck
  split at hcheck
  · cases hcheck
  · split at hcheck
    · cases hcheck
    · rename_i hmapped
      cases hcheck
      obtain ⟨span, hspan⟩ :=
        Option.isSome_iff_exists.mp (p.image.isSome_span_checkAddr
          (Bool.eq_true_of_not_eq_false hmapped))
      exact ⟨p.checked addr, span, _, rfl, Prod.ext hspan rfl⟩

end

end Act

end Decompiler
