import Decompiler.Proofs.Checks
import Decompiler.Proofs.Quoting
import Decompiler.Proofs.TextDumps
/-!
# Lines that are typed at the prompt

A line should lead back to the prompt, or leave on purpose. Some lines cannot be read and end the
session instead (`Shell.Misread`): their quotes are not closed, they are blank, or an argument is no
numeral or empty. A line that can be read asks at most for one operation on a file (`Shell.Asks`) or
for something that the session does not know (`Shell.Unanswered`). All the rest of a line is done
without failure, so that the line is handled exactly if the operation is (`Shell.line_handled_iff`).
-/

namespace Decompiler

variable {place count name : String} {change : Session → Session} {σ₁ : Session}
  {e : Fault} {words : List String}

/-! ## Acts that return -/

theorem Listing.result_each_iff {α : Type} {f : α → Listing Unit} {l : List α} :
    (each f l).result = .ok () ↔ ∀ a ∈ l, (f a).result = .ok () := by
  induction l with
  | nil => simp [each, done]
  | cons a rest ih =>
    rw [List.forall_mem_cons, ← ih]
    show ((f a).andThen fun _ => each f rest).result = .ok () ↔ _
    unfold andThen
    cases (f a).result with
    | ok u | error e => simp

/-- Symbols are listed without failure, unless names are searched and one is missing. -/
theorem Scene.result_symbolList_iff (s : Scene) (withSection : Bool) (pattern : Option String) :
    (s.symbolList withSection pattern).result = .ok () ↔
      pattern = none ∨ ∀ addr, (addr, none) ∉ s.program.symbols.byAddr.entries := by
  have hentry : ∀ addr name, (s.symbolEntry withSection addr name).result = .ok () := by
    intro addr name
    unfold symbolEntry
    cases s.program.image.sectionOf? addr with
    | none => rfl
    | some found => cases withSection <;> rfl
  unfold symbolList
  rw [Listing.result_each_iff]
  constructor
  · intro h
    cases pattern with
    | none => exact .inl rfl
    | some text =>
      refine .inr fun addr hmem => ?_
      cases h (addr, none) hmem
  · rintro h ⟨addr, name?⟩ hmem
    cases name? with
    | none =>
      rcases h with rfl | h
      · rfl
      · exact absurd hmem (h addr)
    | some name =>
      dsimp only
      unfold Listing.only
      split
      · exact hentry addr name
      · rfl

namespace Act

/-- An act comes to its end. -/
def Returns {α : Type} (x : Act α) (σ : Session) : Prop := ∃ a τ, x σ = .ok a τ

variable {α β : Type} {σ : Session} {p : Program} {x : Act α} {τ : Session}

theorem not_returns_of_error {e : Stop} (h : x σ = .error e τ) : ¬ x.Returns σ := by
  rintro ⟨a, τ', hok⟩
  rw [h] at hok
  cases hok

theorem returns_error (text : String) (σ : Session) : (error text).Returns σ := ⟨(), _, rfl⟩

theorem returns_bind_iff {f : α → Act β} (hf : ∀ a τ, (f a).Returns τ) :
    (x >>= f).Returns σ ↔ x.Returns σ := by
  constructor
  · rintro ⟨b, τ, h⟩
    obtain ⟨a, τ', hx, -⟩ := bind_eq_ok.mp h
    exact ⟨a, τ', hx⟩
  · rintro ⟨a, τ, hx⟩
    obtain ⟨b, τ', hrest⟩ := hf a τ
    exact ⟨b, τ', bind_eq_ok.mpr ⟨a, τ, hx, hrest⟩⟩

theorem returns_bind_of_ok {f : α → Act β} {a : α} (h : x σ = .ok a τ) :
    (x >>= f).Returns σ ↔ (f a).Returns τ := by
  unfold Returns
  rw [bind_of_ok h]

theorem returns_program_bind_iff {f : Program → Act β} (hp : σ.program = some p) :
    (program >>= f).Returns σ ↔ (f p).Returns σ := returns_bind_of_ok (program_eq_ok.mpr ⟨hp, rfl⟩)

/-- What only writes about the program needs nothing but that there is one. -/
theorem returns_program_bind_iff_exists {f : Program → Act β} (hf : ∀ p τ, (f p).Returns τ) :
    (program >>= f).Returns σ ↔ σ.program ≠ none := by
  rw [returns_bind_iff hf]
  constructor
  · rintro ⟨p, τ, h⟩
    simp [(program_eq_ok.mp h).1]
  · intro h
    obtain ⟨p, hp⟩ := Option.ne_none_iff_exists'.mp h
    exact ⟨p, σ, program_eq_ok.mpr ⟨hp, rfl⟩⟩

/-- Writing always succeeds and leaves the program as it is. -/
theorem returns_print_bind_iff {text : String} {f : Unit → Act β} :
    (print text >>= f).Returns σ ↔ (f ()).Returns (σ.printed text) := returns_bind_of_ok rfl

theorem program_printed (σ : Session) (text : String) : (σ.printed text).program = σ.program := by
  have hframe := congrArg Session.program (σ.printed_frame text σ.program)
  exact hframe

theorem list_returns_iff {l : Listing α} : (list l).Returns σ ↔ ∃ a, l.result = .ok a := by
  constructor
  · rintro ⟨a, τ, h⟩
    unfold list at h
    rw [get_bind_apply] at h
    obtain ⟨_, τ', -, h⟩ := bind_eq_ok.mp h
    exact ⟨a, (ask_eq_ok.mp h).1⟩
  · rintro ⟨a, h⟩
    exact ⟨a, _, list_of_ok h⟩

theorem listScene_returns_iff {l : Scene → Listing α} (hp : σ.program = some p) :
    (listScene l).Returns σ ↔ ∃ a, (l (sceneOf σ p)).result = .ok a := by
  unfold listScene scene
  rw [bind_assoc, returns_program_bind_iff hp]
  exact list_returns_iff

/-- An act that goes on from a place returns exactly if the place is spelt well and, where it is
found, the rest returns. -/
theorem findEntry_bind_returns_iff (hp : σ.program = some p)
    (hprompt : σ.options.interactive = true) {f : Bool → Act Unit} (hf : ∀ τ, (f false).Returns τ) :
    (findEntry >>= f).Returns σ ↔
      (∀ text, ¬ Misspelt σ text) ∧ ∀ τ, findEntry σ = .ok true τ → (f true).Returns τ := by
  constructor
  · rintro ⟨u, τ', h⟩
    obtain ⟨b, τ₁, hfind, hrest⟩ := bind_eq_ok.mp h
    refine ⟨fun text hmisspelt => ?_, fun τ hτ => ?_⟩
    · rw [findEntry_of_misspelt hp hmisspelt] at hfind
      cases hfind
    · rw [hτ] at hfind
      cases hfind
      exact ⟨u, τ', hrest⟩
  · rintro ⟨hspelt, hfound⟩
    obtain ⟨b, τ, hfind⟩ := findEntry_answers hp hprompt hspelt
    have hrest : (f b).Returns τ := by
      cases b with
      | false => exact hf τ
      | true => exact hfound τ hfind
    obtain ⟨u, τ', hrest⟩ := hrest
    exact ⟨u, τ', bind_eq_ok.mpr ⟨b, τ, hfind, hrest⟩⟩

/-- Texts can be shown wherever a place was found. -/
theorem dumpTexts_returns (hp : σ.program = some p) (h : findEntry σ = .ok true τ) (lines : Int) :
    (dumpTexts lines).Returns τ := by
  obtain ⟨q, span, q', hq, hspan⟩ := exists_span_of_findEntry hp h
  exact ⟨(), _, dump_eq (fun span entry r =>
    TextRow.ofProgram span.last ((span.last - entry).toNat + 1) lines.toNat entry
    TextRow.noCarry r) Scene.textRow hq hspan rfl fun row _ => Scene.writes_textRow _ row⟩

end Act

/-! ## What a line asks for -/

namespace Shell

open Session Act

/-- An operation on a file. -/
inductive Operation where
  | load (name : String)
  | decompile
  | code (lines : Int)
  | data (form : DataForm) (lines : Int)
  | calls
  deriving DecidableEq, Repr

/-- Carries out an operation. -/
def Operation.perform : Operation → Act Unit
  | load name => do let _ ← Act.load name
  | decompile => do let _ ← Act.decompile
  | code lines => dumpCode lines
  | data .texts lines => dumpTexts lines
  | data (.words width) lines => dumpWords lines width
  | calls => listCalls

/-- The operation of a command that works at a place, and the session in which the place is looked
for. There is none if the number of lines cannot be read. -/
def placement? (σ : Session) : Action → List String → Option (Operation × Session)
  | .decompile, args => some (.decompile, { σ with entryName := args.head? }.clearMarks)
  | .dump, args =>
    (linesAsked? σ args).map fun lines => (.code lines, { σ with entryName := args.head? })
  | .data form, args => (linesAsked? σ args).map fun lines =>
      (.data form lines,
        { σ with entryName := args.head?, options := { σ.options with data := true } })
  | .calls, [name] => some (.calls, { σ with callsSection := some name })
  | _, _ => none

/-- How a command that loads a file sets up the session for it. -/
def loading? : Action → Option (Session → Session)
  | .load => some id
  | .loadRaw type little => some fun s =>
      { s with rawType := some type, rawBigEndian := if little then false else s.rawBigEndian }
  | _ => none

/-- A command asks for an operation in a session. Work at a place is asked for only where the place
is found. -/
inductive Asks (σ : Session) : Action → List String → Operation → Session → Prop
  | load {a : Action} {change : Session → Session} {name : String}
    (hloading : loading? a = some change) :
      Asks σ a [name] (.load name) { change σ.unload with fileName := some name }
  | placed {a : Action} {args : List String} {op : Operation} {σ₁ τ : Session}
    (hloaded : σ.program.isSome = true) (hplaced : placement? σ a args = some (op, σ₁))
    (hfound : findEntry σ₁ = .ok true τ) :
      Asks σ a args op τ

/-- Whether a command takes a number of lines. -/
def Action.counts : Action → Bool
  | .dump | .data _ => true
  | _ => false

/-- An argument cannot be read: a number of lines, a place that is written like an address, or the
name of a symbol. -/
inductive BadArgument (σ : Session) : Action → List String → Fault → Prop
  | count {a : Action} {place count : String} (ha : a.counts = true)
      (hunread : Text.decimal? count = none) : BadArgument σ a [place, count] (.badNumeral count)
  | place {a : Action} {args : List String} {op : Operation} {σ₁ : Session} {text : String}
      (hplaced : placement? σ a args = some (op, σ₁)) (hmisspelt : Misspelt σ₁ text) :
      BadArgument σ a args (.badNumeral text)
  | name {others : List String} : BadArgument σ .symbols ("" :: others) .emptyWord

/-- A line cannot be read. Arguments are looked at only when a file is loaded. -/
inductive Misread (σ : Session) (line : String) : Fault → Prop
  | quoting (h : ¬ Text.WellQuoted line.toList) : Misread σ line .badQuoting
  | blank (h : ∀ c ∈ line.toList, Text.isWordBreak c = true) : Misread σ line .emptyWord
  | argument {a : Action} {args : List String} {e : Fault}
    (hinvoked : invoked? line = some (a, args)) (hloaded : σ.program.isSome = true)
    (h : BadArgument σ a args e) : Misread σ line e

/-- The session cannot say what it is asked for: it has the name of a file that was not loaded or is
no longer there, or it searches the names of symbols and one has no name. -/
inductive Unanswered (σ : Session) : Action → List String → Prop
  | info {args : List String} {name : String} (hfile : σ.fileName = some name)
      (h : σ.program = none ∨ (σ.files.lookup name).isSome = false) : Unanswered σ .info args
  | search {p : Program} {first pattern : String} {addr : Int} (hp : σ.program = some p)
      (hbar : first.toList.head? = some '|') (hunnamed : (addr, none) ∈ p.symbols.byAddr.entries) :
      Unanswered σ .symbols [first, pattern]

/-- A line leads back to the prompt, or leaves on purpose. -/
def Handled (σ : Session) (line : String) : Prop :=
  (run line).Returns σ ∨ action? line = some .leave ∧ run line σ = .error (.exit 0) σ

/-- What has to hold for a command to be carried out: its arguments can be read, the session can
answer it, and the operation that it asks for comes to its end. -/
def Feasible (σ : Session) (a : Action) (args : List String) : Prop :=
  (σ.program.isSome = true → ∀ e, ¬ BadArgument σ a args e) ∧ ¬ Unanswered σ a args ∧
    ∀ op τ, Asks σ a args op τ → op.perform.Returns τ

section Commands

variable {σ : Session} {p : Program} {a : Action} {args : List String} {op : Operation}

theorem whenLoaded_returns_of_none (hp : σ.program = none) (x : Act Unit) :
    (whenLoaded x).Returns σ := by
  unfold Returns
  rw [whenLoaded_of_none hp]
  exact returns_error _ σ

theorem placeAndLines_of_unread (h : Text.decimal? count = none) :
    placeAndLines [place, count] σ = .error (.fault (.badNumeral count)) σ := by
  unfold placeAndLines
  rw [get_bind_apply]
  dsimp only
  rw [h]
  rfl

theorem placement?_of_unread (ha : a.counts = true) (h : Text.decimal? count = none) :
    placement? σ a [place, count] = none := by
  cases a with
  | dump | data => simp [placement?, linesAsked?, h]
  | _ => cases ha

theorem placement?_of_loading (h : loading? a = some change) : placement? σ a args = none := by
  cases a with
  | load | loadRaw => rfl
  | _ => cases h

/-- What needs a file is not asked of a session without one. -/
theorem returns_iff_of_none (hp : σ.program = none) {x : Act Unit}
    (hact : act args a = whenLoaded x) (hload : loading? a = none) (hinfo : a ≠ .info) :
    (act args a).Returns σ ↔ Feasible σ a args := by
  rw [hact]
  refine iff_of_true (whenLoaded_returns_of_none hp x) ⟨fun hloaded => by simp [hp] at hloaded,
    fun hunanswered => ?_, fun op τ hasks => ?_⟩
  · cases hunanswered with
    | info => exact hinfo rfl
    | search hsome =>
      rw [hp] at hsome
      cases hsome
  · cases hasks with
    | load hloading => simp [hload] at hloading
    | placed hloaded => simp [hp] at hloaded

/-- Nothing can go wrong in reading a command that works at no place and is none of those that read
an argument. -/
theorem feasible_iff_of_plain (hplace : placement? σ a args = none) (hcounts : a.counts = false)
    (hsymbols : a ≠ .symbols) :
    Feasible σ a args ↔ ¬ Unanswered σ a args ∧ ∀ op τ, Asks σ a args op τ →
      op.perform.Returns τ := by
  refine and_iff_right fun _ e hbad => ?_
  cases hbad with
  | count ha => simp [hcounts] at ha
  | place hplaced => simp [hplace] at hplaced
  | name => exact hsymbols rfl

/-- A command that asks for nothing is feasible. -/
theorem feasible_of_plain (hplace : placement? σ a args = none) (hcounts : a.counts = false)
    (hload : loading? a = none) (hsymbols : a ≠ .symbols) (hinfo : a ≠ .info) :
    Feasible σ a args := by
  refine (feasible_iff_of_plain hplace hcounts hsymbols).mpr ⟨fun hunanswered => ?_,
    fun op τ hasks => ?_⟩
  · cases hunanswered with
    | info => exact hinfo rfl
    | search => exact hsymbols rfl
  · cases hasks with
    | load hloading => simp [hload] at hloading
    | placed _ hplaced => simp [hplace] at hplaced

section Loaded

variable (hp : σ.program = some p)
include hp

theorem whenLoaded_returns_iff {x : Act Unit} : (whenLoaded x).Returns σ ↔ x.Returns σ := by
  unfold Returns
  rw [whenLoaded_of_some hp]

/-- A command at a place looks for the place, and then carries out its operation. -/
theorem act_placed (h : placement? σ a args = some (op, σ₁)) :
    σ₁.program = some p ∧ σ₁.options.interactive = σ.options.interactive ∧
      ∃ f : Bool → Act Unit, act args a σ = (findEntry >>= f) σ₁ ∧ (∀ τ, (f false).Returns τ) ∧
        ∀ τ, (f true).Returns τ ↔ op.perform.Returns τ := by
  cases a with
  | decompile =>
    cases h
    refine ⟨hp, rfl, fun found => if found then (do let _ ← Act.decompile; forgetPlace)
      else pure (), ?_, fun τ => ⟨(), _, rfl⟩, fun τ => ?_⟩
    · rw [act, runDecompile, whenLoaded_of_some hp]
      rfl
    · exact (returns_bind_iff fun _ _ => ⟨(), _, rfl⟩).trans (returns_bind_iff fun _ _ =>
        ⟨(), _, rfl⟩).symm
  | dump =>
    obtain ⟨lines, hlines, heq⟩ := Option.map_eq_some_iff.mp h
    cases heq
    refine ⟨hp, rfl, fun found => if found then (do dumpCode lines; forgetPlace) else pure (), ?_,
      fun τ => ⟨(), _, rfl⟩, fun τ => ?_⟩
    · rw [act, runDump, whenLoaded_of_some hp, bind_of_ok (placeAndLines_of_lines hlines)]
    · exact returns_bind_iff fun _ _ => ⟨(), _, rfl⟩
  | data form =>
    obtain ⟨lines, hlines, heq⟩ := Option.map_eq_some_iff.mp h
    cases heq
    refine ⟨hp, rfl, fun found =>
      if found then (do (Operation.data form lines).perform; forgetPlace; acceptData false)
      else pure (), ?_, fun τ => ⟨(), _, rfl⟩, fun τ => ?_⟩
    · rw [act, runData, whenLoaded_of_some hp, bind_of_ok (placeAndLines_of_lines hlines)]
      cases form with
      | texts | words width => rfl
    · exact returns_bind_iff fun _ _ => ⟨(), _, rfl⟩
  | calls =>
    rcases args with _ | ⟨name, _ | ⟨other, more⟩⟩
    · cases h
    · cases h
      -- The section of the calls is forgotten whether the place is found or not.
      refine ⟨hp, rfl, fun found => do
        if found then
          listCalls
          forgetPlace
        modify fun s => { s with callsSection := none }, ?_, fun τ => ⟨(), _, rfl⟩, fun τ => ?_⟩
      · rw [act, runCalls, whenLoaded_of_some hp]
        rfl
      · exact returns_bind_iff fun _ _ => ⟨(), _, rfl⟩
    · cases h
  | help | load | loadRaw | nothing | symbols | leave | sections | info | toggleSections
  | toggleComments => cases h

/-- A command at a place returns exactly if it is feasible. -/
theorem placed_returns_iff (hprompt : σ.options.interactive = true)
    (h : placement? σ a args = some (op, σ₁)) : (act args a).Returns σ ↔ Feasible σ a args := by
  obtain ⟨hp₁, hprompt₁, f, hact, hfalse, htrue⟩ := act_placed hp h
  have hreturns : (act args a).Returns σ ↔ (findEntry >>= f).Returns σ₁ := by
    unfold Returns
    rw [hact]
  rw [hreturns, findEntry_bind_returns_iff hp₁ (hprompt₁.trans hprompt) hfalse]
  -- A command has one placement, so each rule about it speaks of the same operation and the same
  -- search.
  constructor
  · rintro ⟨hspelt, hfound⟩
    refine ⟨fun _ e hbad => ?_, fun hunanswered => ?_, fun op' τ hasks => ?_⟩
    · cases hbad with
      | count ha hunread =>
        rw [placement?_of_unread ha hunread] at h
        cases h
      | place hplaced hmisspelt =>
        rw [h] at hplaced
        cases hplaced
        exact hspelt _ hmisspelt
      | name => cases h
    · cases hunanswered <;> cases h
    · cases hasks with
      | load hloading =>
        rw [placement?_of_loading hloading] at h
        cases h
      | placed _ hplaced hτ =>
        rw [h] at hplaced
        cases hplaced
        exact (htrue τ).mp (hfound τ hτ)
  · rintro ⟨hread, -, hperform⟩
    have hloaded : σ.program.isSome = true := by simp [hp]
    refine ⟨fun text hmisspelt => hread hloaded _ (.place h hmisspelt), fun τ hτ => ?_⟩
    exact (htrue τ).mpr (hperform op τ (.placed hloaded h hτ))

/-- An argument that cannot be read ends the command with the fault. -/
theorem act_of_badArgument (h : BadArgument σ a args e) :
    ∃ τ, act args a σ = .error (.fault e) τ := by
  cases h with
  | count ha hunread =>
    refine ⟨σ, ?_⟩
    cases a with
    | dump =>
      rw [act, runDump, whenLoaded_of_some hp, bind_of_error (placeAndLines_of_unread hunread)]
    | data form =>
      rw [act, runData, whenLoaded_of_some hp, bind_of_error (placeAndLines_of_unread hunread)]
    | _ => cases ha
  | place hplaced hmisspelt =>
    obtain ⟨hp₁, -, f, hact, -⟩ := act_placed hp hplaced
    rw [hact, bind_of_error (findEntry_of_misspelt hp₁ hmisspelt)]
    exact ⟨_, rfl⟩
  | name =>
    refine ⟨σ, ?_⟩
    rw [act, runSymbols, whenLoaded_of_some hp]
    rfl

/-- Neither side holds of a command with an argument that cannot be read. -/
theorem returns_iff_of_badArgument (h : BadArgument σ a args e) :
    (act args a).Returns σ ↔ Feasible σ a args := by
  obtain ⟨τ, hfails⟩ := act_of_badArgument hp h
  refine iff_of_false (not_returns_of_error hfails) ?_
  rintro ⟨hread, -⟩
  exact hread (by simp [hp]) e h

/-- Defining a symbol succeeds or reports an error. -/
theorem defineSymbol_returns (name addr : String) : (defineSymbol name addr).Returns σ := by
  unfold defineSymbol
  rw [returns_program_bind_iff hp]
  dsimp only
  split
  · exact ⟨(), _, rfl⟩
  · split
    · exact ⟨(), _, rfl⟩
    · exact returns_error _ σ
  · exact returns_error _ σ

theorem unanswered_search_iff {first pattern : String} (hbar : first.toList.head? = some '|') :
    Unanswered σ .symbols [first, pattern] ↔ ∃ addr, (addr, none) ∈ p.symbols.byAddr.entries := by
  constructor
  · intro h
    cases h with
    | search hq _ hunnamed =>
      rw [hp] at hq
      cases hq
      exact ⟨_, hunnamed⟩
  · rintro ⟨addr, hunnamed⟩
    exact .search hp hbar hunnamed

end Loaded

theorem counts_returns_iff (hprompt : σ.options.interactive = true) (ha : a.counts = true) :
    (act args a).Returns σ ↔ Feasible σ a args := by
  cases hp : σ.program with
  | none =>
    cases a with
    | dump | data form => exact returns_iff_of_none hp rfl rfl Action.noConfusion
    | _ => cases ha
  | some p =>
    cases hplaced : placement? σ a args with
    | some placement => exact placed_returns_iff hp hprompt hplaced
    | none =>
      have hlines : linesAsked? σ args = none := by
        cases a with
        | dump | data form => exact Option.map_eq_none_iff.mp hplaced
        | _ => cases ha
      obtain ⟨place, count, rfl, hunread⟩ := linesAsked?_eq_none hlines
      exact returns_iff_of_badArgument hp (.count ha hunread)

theorem loading_returns_iff (h : loading? a = some change) :
    (act args a).Returns σ ↔ Feasible σ a args := by
  have hact : act args a = loadAs change args := by
    cases a with
    | load | loadRaw =>
      cases h
      rfl
    | _ => cases h
  have hplace : ∀ args, placement? σ a args = none := fun _ => placement?_of_loading h
  have hplain : Feasible σ a args ↔ ∀ op τ, Asks σ a args op τ → op.perform.Returns τ := by
    have hcounts : a.counts = false := by
      cases a with
      | dump | data => cases h
      | _ => rfl
    have hsymbols : a ≠ .symbols := by
      rintro rfl
      cases h
    refine (feasible_iff_of_plain (hplace args) hcounts hsymbols).trans (and_iff_right ?_)
    intro hunanswered
    cases hunanswered <;> cases h
  have hasked : ∀ op τ, Asks σ a args op τ ↔
      ∃ name, args = [name] ∧ op = .load name ∧
      τ = { change σ.unload with fileName := some name } := by
    refine fun op τ => ⟨fun hasks => ?_, ?_⟩
    · cases hasks with
      | load hloading =>
        rw [h] at hloading
        cases hloading
        exact ⟨_, rfl, rfl, rfl⟩
      | placed _ hplaced => simp [hplace] at hplaced
    · rintro ⟨name, rfl, rfl, rfl⟩
      exact .load h
  -- Without exactly one name there is nothing to load, and that is reported.
  rw [hact, hplain]
  rcases args with _ | ⟨name, _ | ⟨other, more⟩⟩
  · exact iff_of_true (returns_error _ σ) (by simp [hasked])
  · simp [hasked]
    rfl
  · exact iff_of_true (returns_error _ σ) (by simp [hasked])

theorem info_returns_iff : (act args .info).Returns σ ↔ Feasible σ .info args := by
  have hfeasible : Feasible σ .info args ↔ ¬ Unanswered σ .info args := by
    refine (feasible_iff_of_plain rfl rfl Action.noConfusion).trans
      (and_iff_left fun op τ hasks => ?_)
    cases hasks with
    | load hloading => cases hloading
    | placed _ hplaced => cases hplaced
  rw [hfeasible, act, runInfo]
  rw [returns_bind_of_ok (rfl : (get : Act Session) σ = .ok σ σ)]
  cases hfile : σ.fileName with
  | none =>
    refine iff_of_true ⟨(), _, rfl⟩ fun hunanswered => ?_
    cases hunanswered with
    | info hname => simp [hfile] at hname
  | some name =>
    -- The file is looked up before the program is asked for, but either is enough to fail.
    have hunanswered : Unanswered σ .info args ↔ σ.program = none ∨
        (σ.files.lookup name).isSome = false := by
      constructor
      · intro h
        cases h with
        | info hname h =>
          rw [hfile] at hname
          cases hname
          exact h
      · exact .info hfile
    rw [hunanswered, Files.lookup]
    dsimp only
    rw [printLine, returns_print_bind_iff]
    cases hentry : σ.files.resolve name with
    | error e =>
      exact iff_of_false (not_returns_of_error (bind_of_error rfl)) (not_not.mpr (.inr rfl))
    | ok found =>
      obtain ⟨place, entry⟩ := found
      have hmissing : (σ.program = none ∨
          ((Except.ok (ε := Fault) (place, entry)).toOption.map Prod.snd).isSome = false) ↔
          σ.program = none := or_iff_left Bool.true_eq_false.mp
      rw [hmissing, returns_bind_of_ok (ask_eq_ok.mpr ⟨rfl, rfl⟩)]
      cases entry with
      | directory | file =>
        dsimp only
        rw [printLine, returns_print_bind_iff, returns_print_bind_iff]
        refine (returns_program_bind_iff_exists fun _ _ => ⟨(), _, rfl⟩).trans ?_
        rw [program_printed, program_printed, program_printed]

/-- Of the symbols, only the empty name and a search for names need a closer look. -/
theorem feasible_symbols_iff (hname : args.head? ≠ some "") :
    Feasible σ .symbols args ↔ ¬ Unanswered σ .symbols args := by
  constructor
  · exact fun h => h.2.1
  · refine fun hanswered => ⟨fun _ e hbad => ?_, hanswered, fun op τ hasks => ?_⟩
    · cases hbad with
      | count ha => cases ha
      | place hplaced => cases hplaced
      | name => exact hname rfl
    · cases hasks with
      | load hloading => cases hloading
      | placed _ hplaced => cases hplaced

theorem symbols_returns_iff : (act args .symbols).Returns σ ↔ Feasible σ .symbols args := by
  cases hp : σ.program with
  | none => exact returns_iff_of_none hp rfl rfl Action.noConfusion
  | some p =>
    have hlisted : ∀ pattern, (listSymbols σ.options.sectionNames pattern).Returns σ ↔
        pattern = none ∨ ∀ addr, (addr, none) ∉ p.symbols.byAddr.entries := by
      intro pattern
      rw [listSymbols, listScene_returns_iff hp]
      exact Unique.exists_iff.trans (Scene.result_symbolList_iff _ _ _)
    rw [act, runSymbols, whenLoaded_returns_iff hp,
      returns_bind_of_ok (rfl : (get : Act Session) σ = .ok σ σ)]
    rcases args with _ | ⟨first, others⟩
    · refine iff_of_true ((hlisted none).mpr (.inl rfl))
        ((feasible_symbols_iff (by simp)).mpr fun h => ?_)
      cases h
    · dsimp only
      cases hfirst : first.toList.head? with
      | none =>
        -- A word without a first letter is the empty one.
        obtain rfl : first = "" := String.toList_eq_nil_iff.mp (List.head?_eq_none_iff.mp hfirst)
        have hfails : ¬ Feasible σ .symbols ("" :: others) := fun h => h.1 (by simp [hp]) _ .name
        exact iff_of_false (not_returns_of_error rfl) hfails
      | some c =>
        have hname : (first :: others).head? ≠ some "" := by
          intro h
          cases h
          cases hfirst
        rw [feasible_symbols_iff hname]
        dsimp only
        by_cases hbar : c = '|'
        · rw [if_pos hbar]
          rcases others with _ | ⟨pattern, _ | ⟨other, more⟩⟩
          · refine iff_of_true (returns_error _ σ) fun h => ?_
            cases h
          · rw [hlisted, unanswered_search_iff hp (hbar ▸ hfirst)]
            simp
          · refine iff_of_true (returns_error _ σ) fun h => ?_
            cases h
        · rw [if_neg hbar]
          refine iff_of_true ?_ fun h => ?_
          · rcases others with _ | ⟨addr, _ | ⟨other, more⟩⟩
            · exact returns_error _ σ
            · dsimp only
              split
              · exact defineSymbol_returns hp first addr
              · exact returns_error _ σ
            · exact returns_error _ σ
          · cases h with
            | search _ hmark =>
              rw [hfirst] at hmark
              exact hbar (Option.some.inj hmark)

theorem sections_returns (σ : Session) : runSections.Returns σ := by
  cases hp : σ.program with
  | none => exact whenLoaded_returns_of_none hp _
  | some p =>
    rw [runSections, whenLoaded_returns_iff hp, returns_print_bind_iff, listSections,
      returns_program_bind_iff ((program_printed σ _).trans hp), list_returns_iff]
    exact ⟨(), Listing.result_each_iff.mpr fun _ _ => rfl⟩

/-- A command other than the one to leave returns exactly if it is feasible. -/
theorem act_returns_iff (hprompt : σ.options.interactive = true) (ha : a ≠ .leave) :
    (act args a).Returns σ ↔ Feasible σ a args := by
  cases a with
  | help | nothing | toggleSections | toggleComments =>
    exact iff_of_true ⟨(), _, rfl⟩ (feasible_of_plain rfl rfl rfl nofun nofun)
  | sections =>
    exact iff_of_true (sections_returns σ) (feasible_of_plain rfl rfl rfl nofun nofun)
  | load | loadRaw => exact loading_returns_iff rfl
  | dump | data => exact counts_returns_iff hprompt rfl
  | decompile =>
    cases hp : σ.program with
    | none => exact returns_iff_of_none hp rfl rfl Action.noConfusion
    | some p => exact placed_returns_iff hp hprompt rfl
  | calls =>
    rcases args with _ | ⟨name, _ | ⟨other, more⟩⟩
    · exact iff_of_true (returns_error _ σ) (feasible_of_plain rfl rfl rfl nofun nofun)
    · cases hp : σ.program with
      | none => exact returns_iff_of_none hp rfl rfl Action.noConfusion
      | some p => exact placed_returns_iff hp hprompt rfl
    · exact iff_of_true (returns_error _ σ) (feasible_of_plain rfl rfl rfl nofun nofun)
  | symbols => exact symbols_returns_iff
  | info => exact info_returns_iff
  | leave => exact absurd rfl ha

/-- A place for texts that was found is one to show texts at. -/
theorem texts_returns {lines : Int} {τ : Session} (h : Asks σ a args (.data .texts lines) τ) :
    (dumpTexts lines).Returns τ := by
  cases h with
  | placed hloaded hplaced hfound =>
    obtain ⟨p, hp⟩ := Option.isSome_iff_exists.mp hloaded
    exact dumpTexts_returns (act_placed hp hplaced).1 hfound lines

end Commands

/-! ## Lines -/

section Lines

variable {σ : Session} {line : String}

/-- A line that cannot be read ends with its fault. -/
theorem run_of_misread (h : Misread σ line e) : ∃ τ, run line σ = .error (.fault e) τ := by
  cases h with
  | quoting hopen =>
    refine ⟨σ, ?_⟩
    unfold run
    rw [(Text.words?_eq_none_iff line).mpr hopen]
    rfl
  | blank hblank =>
    refine ⟨σ, ?_⟩
    unfold run
    rw [(Text.words?_eq_nil_iff line).mpr hblank]
    rfl
  | argument hinvoked hloaded hbad =>
    obtain ⟨p, hp⟩ := Option.isSome_iff_exists.mp hloaded
    rw [run_of_invoked hinvoked]
    exact act_of_badArgument hp hbad

/-- A line with words that is no command with its arguments is answered with an error. -/
theorem run_of_uninvoked (hwords : Text.words? line = some (name :: words))
    (h : invoked? line = none) : (run line).Returns σ := by
  unfold invoked? at h
  unfold run
  rw [hwords] at h ⊢
  dsimp only at h ⊢
  cases hcommand : command? name with
  | none => exact returns_error _ σ
  | some c =>
    rw [hcommand] at h
    dsimp only [Option.bind_some] at h ⊢
    split
    · exact returns_error _ σ
    · rename_i hfew
      rw [if_neg hfew] at h
      cases h

/-- A line with words can only be misread in its arguments. -/
theorem misread_iff_of_words (hwords : Text.words? line = some (name :: words)) :
    Misread σ line e ↔ ∃ a args, invoked? line = some (a, args) ∧ σ.program.isSome = true ∧
      BadArgument σ a args e := by
  constructor
  · intro h
    cases h with
    | quoting hopen =>
      rw [(Text.words?_eq_none_iff line).mpr hopen] at hwords
      cases hwords
    | blank hblank =>
      rw [(Text.words?_eq_nil_iff line).mpr hblank] at hwords
      cases hwords
    | argument hinvoked hloaded hbad => exact ⟨_, _, hinvoked, hloaded, hbad⟩
  · rintro ⟨a, args, hinvoked, hloaded, hbad⟩
    exact .argument hinvoked hloaded hbad

/-- A line that is a command is handled exactly if the command is feasible. -/
theorem handled_iff_of_invoked {a : Action} {args : List String}
    (hprompt : σ.options.interactive = true) (hinvoked : invoked? line = some (a, args)) :
    Handled σ line ↔ Feasible σ a args := by
  have hrun := run_of_invoked hinvoked
  have haction := action?_of_invoked hinvoked
  unfold Handled
  rw [hrun, haction]
  by_cases hleave : a = .leave
  · subst hleave
    exact iff_of_true (.inr ⟨rfl, rfl⟩) (feasible_of_plain rfl rfl rfl nofun nofun)
  · rw [← act_returns_iff hprompt hleave]
    refine or_iff_left ?_
    rintro ⟨hsame, -⟩
    exact hleave (Option.some.inj hsame)

/-- At the prompt a line is handled exactly if it can be read, the session can say what it is asked
for, and the operation on a file that the line asks for, if any, comes to its end. A line that
cannot be read fails for that reason. Showing texts always comes to its end. -/
theorem line_handled_iff (hprompt : σ.options.interactive = true) (line : String) :
    (Handled σ line ↔ (∀ e, ¬ Misread σ line e) ∧ ∀ a args, invoked? line = some (a, args) →
        ¬ Unanswered σ a args ∧ ∀ op τ, Asks σ a args op τ → op.perform.Returns τ) ∧
      (∀ e, Misread σ line e → ∃ τ, run line σ = .error (.fault e) τ) ∧
      ∀ a args, invoked? line = some (a, args) → ∀ lines τ, Asks σ a args (.data .texts lines) τ →
        (dumpTexts lines).Returns τ := by
  refine ⟨?_, fun e h => run_of_misread h, fun a args _ lines τ h => texts_returns h⟩
  have hfails : ∀ {e}, Misread σ line e → ¬ Handled σ line := by
    rintro e hmisread (hreturns | ⟨-, hleaves⟩)
    · obtain ⟨τ, hrun⟩ := run_of_misread hmisread
      exact not_returns_of_error hrun hreturns
    · obtain ⟨τ, hrun⟩ := run_of_misread hmisread
      rw [hrun] at hleaves
      cases hleaves
  cases hwords : Text.words? line with
  | none =>
    have hmisread : Misread σ line .badQuoting :=
      .quoting ((Text.words?_eq_none_iff line).mp hwords)
    exact iff_of_false (hfails hmisread) fun h => h.1 _ hmisread
  | some words =>
    cases words with
    | nil =>
      have hmisread : Misread σ line .emptyWord := .blank ((Text.words?_eq_nil_iff line).mp hwords)
      exact iff_of_false (hfails hmisread) fun h => h.1 _ hmisread
    | cons name words =>
      simp only [misread_iff_of_words hwords]
      cases hinvoked : invoked? line with
      | none => exact iff_of_true (.inl (run_of_uninvoked hwords hinvoked)) (by simp)
      | some command =>
        obtain ⟨a, args⟩ := command
        rw [handled_iff_of_invoked hprompt hinvoked]
        constructor
        · rintro ⟨hread, hanswered, hperform⟩
          refine ⟨?_, ?_⟩
          · rintro e ⟨a', args', hsame, hloaded, hbad⟩
            cases hsame
            exact hread hloaded e hbad
          · intro a' args' hsame
            cases hsame
            exact ⟨hanswered, hperform⟩
        · rintro ⟨hread, hcommand⟩
          obtain ⟨hanswered, hperform⟩ := hcommand a args rfl
          exact ⟨fun hloaded e hbad => hread e ⟨a, args, rfl, hloaded, hbad⟩, hanswered, hperform⟩

/-- Texts of a file with a section of data can be shown. -/
theorem line_handled_iff_texts :
    sectionedLoaded.options.interactive = true ∧ Handled sectionedLoaded "da 0x200" := by
  have hprompt : sectionedLoaded.options.interactive = true := rfl
  have hwords : Text.words? "da 0x200" = some ["da", "0x200"] := by decide
  have hinvoked : invoked? "da 0x200" = some (.data .texts, ["0x200"]) := by decide
  obtain ⟨hhandled, -, htexts⟩ := line_handled_iff hprompt "da 0x200"
  refine ⟨hprompt, hhandled.mpr ⟨fun e hmisread => ?_, fun a args hsame => ?_⟩⟩
  · obtain ⟨a, args, hsame, -, hbad⟩ := (misread_iff_of_words hwords).mp hmisread
    rw [hinvoked] at hsame
    cases hsame
    cases hbad with
    | place hplaced hmisspelt =>
      cases hplaced
      cases hmisspelt.name
      exact absurd hmisspelt.unread (by decide)
  · rw [hinvoked] at hsame
    cases hsame
    refine ⟨fun hunanswered => ?_, fun op τ hasks => ?_⟩
    · cases hunanswered
    · cases hasks with
      | load hloading => cases hloading
      | placed hloaded hplaced hfound =>
        cases hplaced
        exact htexts _ _ hinvoked _ τ (.placed hloaded rfl hfound)

/-- A blank line and an open quotation end the session, with a file or without. So do, with a file,
a number of lines and an address that are no numerals, and an empty name. -/
theorem misread_lines_fail :
    (∃ τ, run " " sectionedOpen = .error (.fault .emptyWord) τ) ∧
      (∃ τ, run "'" sectionedOpen = .error (.fault .badQuoting) τ) ∧
      run "load f" sectionedOpen = .ok () sectionedLoaded ∧
      (∃ τ, run "dump EP many" sectionedLoaded = .error (.fault (.badNumeral "many")) τ) ∧
      (∃ τ, run "x 0xyz" sectionedLoaded = .error (.fault (.badNumeral "0xyz")) τ) ∧
      ∃ τ, run "sym '' 0x100" sectionedLoaded = .error (.fault .emptyWord) τ :=
  ⟨⟨_, rfl⟩, ⟨_, rfl⟩, load_sectioned, ⟨_, rfl⟩, ⟨_, rfl⟩, ⟨_, rfl⟩⟩

end Lines

end Shell

end Decompiler
