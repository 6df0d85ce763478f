import Decompiler.Proofs.Outcome
import Decompiler.Session.Decompile
import Decompiler.Session.Load
/-!
# What acts change

An act that succeeds is taken apart into its steps.
-/

namespace Decompiler

namespace Act

variable {α : Type} {σ σ' : Session} {a : α} {p : Program} {u : Unit}

theorem ask_eq_ok {answer : Except Fault α} :
    ask answer σ = .ok a σ' ↔ answer = .ok a ∧ σ = σ' := by
  cases answer with
  | ok b => simp only [ask, pure_eq_ok, Except.ok.injEq]
  | error e =>
    constructor
    · intro h
      cases h
    · rintro ⟨h, -⟩
      cases h

theorem program_eq_ok : program σ = .ok p σ' ↔ σ.program = some p ∧ σ = σ' := by
  unfold program
  rw [get_bind_apply]
  cases σ.program with
  | none =>
    constructor
    · intro h
      cases h
    · rintro ⟨h, -⟩
      cases h
  | some q => simp only [pure_eq_ok, Option.some.injEq]

theorem mark_eq_ok {f : Marks → Marks} (h : mark f σ = .ok u σ') :
    σ' = { σ with marks := f σ.marks } := by
  cases h
  rfl

theorem trace_eq_ok {text : String} (h : trace text σ = .ok u σ') :
    ∃ err, σ' = { σ with console := { σ.console with err } } := by
  unfold trace at h
  rw [get_bind_apply] at h
  split at h
  · cases h
    exact ⟨_, rfl⟩
  · cases h
    exact ⟨σ.console.err, rfl⟩

theorem decode_eq_ok {op : Decoding α} (h : decode op σ = .ok a σ') :
    ∃ p p', σ.program = some p ∧ op p = .ok a p' ∧ σ' = { σ with program := some p' } := by
  obtain ⟨p, σ₁, hread, h⟩ := bind_eq_ok.mp h
  obtain ⟨hp, rfl⟩ := program_eq_ok.mp hread
  cases hop : op p with
  | ok b p' =>
    rw [hop] at h
    cases h
    exact ⟨p, p', hp, hop, rfl⟩
  | error e p' =>
    rw [hop] at h
    cases h

/-- A program that is read from a file has the image in the file, and the target and the symbols
that the image lists; nothing has been decoded. At most the stages of reading are reported. -/
theorem readProgram_eq_ok {f : FileContents} (h : readProgram f σ = .ok p σ') :
    f.image σ.rawType σ.rawBase σ.rawBigEndian = .ok p.image ∧
      p.image.target = .ok (some p.target) ∧ p.image.symbols = .ok p.symbols ∧ p.code = ∅ ∧
        ∃ err, σ' = { σ with console := { σ.console with err } } := by
  unfold readProgram at h
  rw [get_bind_apply] at h
  obtain ⟨image, σ₁, hask, h⟩ := bind_eq_ok.mp h
  obtain ⟨himage, rfl⟩ := ask_eq_ok.mp hask
  split at h
  -- That the image was found may be reported; the rest is the same.
  on_goal 1 =>
    obtain ⟨_, σ₂, htrace, h⟩ := bind_eq_ok.mp h
    obtain ⟨err, rfl⟩ := trace_eq_ok htrace
  all_goals
    obtain ⟨target?, σ₃, hask, h⟩ := bind_eq_ok.mp h
    obtain ⟨htarget, rfl⟩ := ask_eq_ok.mp hask
    cases target? with
    | none =>
      obtain ⟨_, _, -, h⟩ := bind_eq_ok.mp h
      cases h
    | some target =>
      obtain ⟨symbols, σ₄, hask, h⟩ := bind_eq_ok.mp h
      obtain ⟨hsymbols, rfl⟩ := ask_eq_ok.mp hask
      obtain ⟨_, σ₅, htrace, h⟩ := bind_eq_ok.mp h
      obtain ⟨rfl, rfl⟩ := pure_eq_ok.mp h
      obtain ⟨err', rfl⟩ := trace_eq_ok htrace
      exact ⟨himage, htarget, hsymbols, rfl, err', rfl⟩

/-- While a file is loaded, a program comes only from reading that succeeds: a failure that is
reported gives none. -/
theorem read_eq_some {f : FileContents}
    (h : tryCatch (some <$> readProgram f) (fun e => do let _ ← reportLoadFault e return none) σ =
      .ok (some p) σ') : readProgram f σ = .ok p σ' := by
  rcases tryCatch_eq_ok.mp h with hdone | ⟨e, σ₁, -, hhandled⟩
  · obtain ⟨q, hq, hqp⟩ := map_eq_ok.mp hdone
    obtain rfl := Option.some.inj hqp
    exact hq
  · obtain ⟨_, _, -, hnone⟩ := bind_eq_ok.mp hhandled
    cases hnone

/-- What is printed from in a session with a program. -/
def sceneOf (σ : Session) (p : Program) : Scene := ⟨σ.options, σ.marks, σ.notes, p⟩

theorem print_eq_ok {text : String} (hredirect : σ.console.redirect = none)
    (h : print text σ = .ok u σ') :
    σ' = { σ with console := { σ.console with out := σ.console.out ++ text } } := by
  cases h
  dsimp only
  rw [hredirect]

/-- A listing that goes to the console is added to what stands there. -/
theorem list_eq_ok {l : Listing α} (hredirect : σ.console.redirect = none)
    (h : list l σ = .ok a σ') :
    l.result = .ok a ∧
      σ' = { σ with console := { σ.console with out := σ.console.out ++ l.render σ.options.color }
        } := by
  unfold list at h
  rw [get_bind_apply] at h
  obtain ⟨_, σ₁, hprint, h⟩ := bind_eq_ok.mp h
  obtain ⟨hresult, rfl⟩ := ask_eq_ok.mp h
  exact ⟨hresult, print_eq_ok hredirect hprint⟩

theorem listScene_eq_ok {l : Scene → Listing α} (hp : σ.program = some p)
    (hredirect : σ.console.redirect = none) (h : listScene l σ = .ok a σ') :
    (l (sceneOf σ p)).result = .ok a ∧
      σ' = { σ with console :=
        { σ.console with out := σ.console.out ++ (l (sceneOf σ p)).render σ.options.color } } := by
  obtain ⟨s, σ₁, hscene, h⟩ := bind_eq_ok.mp h
  obtain ⟨q, σ₂, hread, hscene⟩ := bind_eq_ok.mp hscene
  obtain ⟨hq, rfl⟩ := program_eq_ok.mp hread
  obtain rfl : p = q := Option.some.inj (hp.symm.trans hq)
  cases hscene
  exact list_eq_ok hredirect h

end Act

end Decompiler
