import Decompiler.Proofs.History
import Decompiler.Proofs.ShownInsns
/-!
# Dumps after a history

A dump writes a row for every instruction from a place on. Which instructions those are depends on
the file alone (`Program.swept`), but an instruction that the last analysis put into a condition is
left out, and that is not forgotten until the next analysis. So a dump shows what it would have
shown right after the file was loaded, without the comparisons that are shown in conditions
(`Shell.dump_after_history`).
-/

namespace Decompiler

open List

variable {i? : Option Insn} {p : Program} {span : SectionSpan} {count : Nat} {addr : Int}
  {s : Scene} {args : List String}

/-! ## Rows -/

/-- A row of a dump: the instruction, if one could be decoded, and what is written for it. -/
structure DumpRow where
  insn? : Option Insn
  listing : Listing Unit

namespace DumpRow

/-- The address of the instruction, if the row has it in its column. -/
def address? (r : DumpRow) : Option Int :=
  (r.insn?.filter fun i => r.listing.pieces.any fun p => p.column? = some i.addr).map (·.addr)

/-- The addresses of instructions that are shown in rows, in their order. -/
def addresses (rows : List DumpRow) : List Int := rows.filterMap address?

/-- The text of rows. -/
def text (color : Bool) (rows : List DumpRow) : String :=
  String.join (rows.map (·.listing.render color))

theorem text_cons (color : Bool) (row : DumpRow) (rows : List DumpRow) :
    text color (row :: rows) = row.listing.render color ++ text color rows := by
  rw [text, map_cons, String.join_cons, text]

end DumpRow

/-- Where the instruction or the byte at an address ends. -/
def afterRow (addr : Int) (i? : Option Insn) : Int :=
  match i? with
  | some i => addr + i.size
  | none => addr + 1

namespace Scene

/-- What a dump writes at an address. -/
def dumpListing (s : Scene) (addr : Int) (i? : Option Insn) : Listing Unit :=
  match i? with
  | some i => s.insn i 0
  | none => s.undecoded (addr + 1) 0

/-- The rows of a dump of a section from an address on, at most `count`. -/
def dumpRows (span : SectionSpan) : (count : Nat) → (addr : Int) → Scene → List DumpRow
  | 0, _, _ => []
  | count + 1, addr, s =>
    if addr < span.last then
      let found := s.program.insnAt addr (some span.start)
      let s := { s with program := found.2 }
      ⟨found.1, s.dumpListing addr found.1⟩ :: dumpRows span count (afterRow addr found.1) s
    else []

section Steps

variable {span : SectionSpan} {count : Nat} {addr : Int} {s : Scene}

theorem dumpRows_next (hlt : addr < span.last)
    (h : s.program.insnAt addr (some span.start) = (i?, p)) :
    dumpRows span (count + 1) addr s =
      ⟨i?, { s with program := p }.dumpListing addr i?⟩ ::
        dumpRows span count (afterRow addr i?) { s with program := p } := by
  rw [dumpRows, if_pos hlt, h]

theorem dumpRows_end (hge : ¬ addr < span.last) : dumpRows span (count + 1) addr s = [] := by
  rw [dumpRows, if_neg hge]

end Steps

/-- The marks stay the same along the rows. -/
theorem exists_of_mem_dumpRows {row : DumpRow} (h : row ∈ dumpRows span count addr s) :
    ∃ p addr' i?, row = ⟨i?, { s with program := p }.dumpListing addr' i?⟩ := by
  induction count generalizing addr s with
  | zero => cases h
  | succ count ih =>
    unfold dumpRows at h
    split at h
    · rcases mem_cons.mp h with rfl | h
      · exact ⟨_, _, _, rfl⟩
      · have hrest := ih h
        exact hrest
    · cases h

/-- The row of an instruction has its address in the column, unless the instruction is left out. -/
theorem address?_insn {i : Insn} (addr : Int)
    (hok : (s.dumpListing addr (some i)).result = .ok ()) :
    DumpRow.address? ⟨some i, s.dumpListing addr (some i)⟩ =
      if i.addr ∈ s.marks.fused then none else some i.addr := by
  by_cases hfused : i.addr ∈ s.marks.fused
  · have hpieces : (s.dumpListing addr (some i)).pieces = [] := by
      have hcontains : s.marks.fused.contains i.addr = true := by simpa using hfused
      simp only [dumpListing, Scene.insn]
      cases s.arch with
      | x86 => simp only [X86.insn, hcontains, if_true]; rfl
      | arm => simp only [Arm.insn, hcontains, if_true]; rfl
      | mips => simp only [Mips.insn, hcontains, if_true]; rfl
    simp [DumpRow.address?, hpieces, hfused]
  · obtain ⟨p, hp, hcolumn⟩ := (Scene.insn_shows 0 hfused).exists_column hok
    have hany : ((s.dumpListing addr (some i)).pieces.any fun p => p.column? = some i.addr) =
        true :=
      any_eq_true.mpr ⟨p, hp, by simpa using hcolumn⟩
    simp only [DumpRow.address?, Option.filter, hany, if_true, hfused, if_false, Option.map_some]

end Scene

/-! ## The instructions of a dump -/

namespace Program

/-- What the decoder gives from an address on, in one section, at most `count` times: instructions,
and bytes that are none. -/
def swept (p : Program) (span : SectionSpan) : (count : Nat) → (addr : Int) → List (Option Insn)
  | 0, _ => []
  | count + 1, addr =>
    if addr < span.last then
      let i? := p.decodeWithin? addr (some span.start)
      i? :: p.swept span count (afterRow addr i?)
    else []

theorem swept_next (hlt : addr < span.last) (h : p.decodeWithin? addr (some span.start) = i?) :
    p.swept span (count + 1) addr = i? :: p.swept span count (afterRow addr i?) := by
  rw [swept, if_pos hlt, h]

theorem swept_end (hge : ¬ addr < span.last) : p.swept span (count + 1) addr = [] := by
  rw [swept, if_neg hge]

/-- The addresses at which instructions are decoded. -/
def sweptAddresses (p : Program) (span : SectionSpan) (count : Nat) (addr : Int) : List Int :=
  (p.swept span count addr).filterMap fun i? => i?.map (·.addr)

end Program

namespace Scene

variable {p₀ : Program} (h₀ : p₀.image.Steady)

include h₀

/-- A dump goes over what the decoder gives, whatever was decoded before. -/
theorem dumpRows_insns (span : SectionSpan) :
    ∀ (count : Nat) (addr : Int) (s : Scene), p₀.Since s.program →
    (dumpRows span count addr s).map (·.insn?) = p₀.swept span count addr := by
  intro count
  induction count with
  | zero => intro addr s _; rfl
  | succ count ih =>
    intro addr s hs
    obtain ⟨p', hfound, hsince⟩ := Program.insnAt_eq h₀ hs addr (some span.start)
    by_cases hlt : addr < span.last
    · rw [dumpRows_next hlt hfound, Program.swept_next hlt rfl, map_cons,
        ih _ { s with program := p' } hsince]
    · rw [dumpRows_end hlt, Program.swept_end hlt, map_nil]

/-- A dump that is written shows the instructions that are not left out. -/
theorem addresses_dumpRows (hs : p₀.Since s.program)
    (hok : ∀ row ∈ dumpRows span count addr s, row.listing.result = .ok ()) :
    DumpRow.addresses (dumpRows span count addr s) =
      (p₀.sweptAddresses span count addr).filter fun a => a ∉ s.marks.fused := by
  rw [Program.sweptAddresses, ← dumpRows_insns h₀ span count addr s hs, filterMap_map,
    filter_filterMap]
  refine filterMap_congr fun row hrow => ?_
  have hwritten := hok row hrow
  obtain ⟨p, addr', i?, rfl⟩ := exists_of_mem_dumpRows hrow
  cases i? with
  | none => rfl
  | some i =>
    rw [address?_insn addr' hwritten]
    by_cases hfused : i.addr ∈ s.marks.fused <;> simp [Option.filter, hfused]

end Scene

/-! ## What a dump prints -/

namespace Act

open Session

variable {σ σ' : Session}

/-- What a dump does before it writes its rows: it finds the place, writes the name of the section,
colours the targets of jumps and names imported functions. It gives the section, the number of rows
and the place, if that can be used. -/
def beginDump (args : List String) : Act (Option (SectionSpan × Nat × Int)) := do
  let lines ← Shell.placeAndLines args
  if ← findEntry then
    let span ← sectionHead
    let entry := (← get).marks.entry
    sweep tintJump span lines.toNat entry
    nameStubs
    return some (span, lines.toNat, entry)
  else return none

/-- Writes the rows of a dump. -/
def writeRows : Option (SectionSpan × Nat × Int) → Act Unit
  | some (span, count, entry) => do
    sweep dumpInsn span count entry
    Shell.forgetPlace
  | none => pure ()

theorem runDump_eq (args : List String) :
    Shell.runDump args = Shell.whenLoaded (beginDump args >>= writeRows) := by
  unfold Shell.runDump beginDump dumpCode
  congr 1
  simp only [bind_assoc]
  refine congrArg _ (funext fun lines => congrArg _ (funext fun found => ?_))
  cases found with
  | true | false => simp [writeRows]

/-- The section and the rows that a dump writes in a session, if the place can be used. -/
def dumped? (args : List String) (σ : Session) : Option (SectionSpan × List DumpRow) :=
  match beginDump args σ with
  | .ok (some (span, count, entry)) σ' =>
    σ'.program.map fun p => (span, Scene.dumpRows span count entry (sceneOf σ' p))
  | .ok none _ => none
  | .error _ _ => none

theorem beginDump_of_dumped? {rows : List DumpRow} (h : dumped? args σ = some (span, rows)) :
    ∃ count entry σ' p, beginDump args σ = .ok (some (span, count, entry)) σ' ∧
      σ'.program = some p ∧ rows = Scene.dumpRows span count entry (sceneOf σ' p) := by
  unfold dumped? at h
  split at h
  · rename_i span' count entry σ' hbegin
    obtain ⟨p, hp, heq⟩ := Option.map_eq_some_iff.mp h
    obtain ⟨rfl, rfl⟩ := Prod.mk.inj heq
    exact ⟨count, entry, σ', p, hbegin, hp, rfl⟩
  · cases h
  · cases h

theorem dumpInsn_eq_ok {u : Unit} (hp : σ.program = some p)
    (hredirect : σ.console.redirect = none) (h : dumpInsn addr i? σ = .ok u σ') :
    ((sceneOf σ p).dumpListing addr i?).result = .ok () ∧
      σ' = { σ with console := { σ.console with
        out := σ.console.out ++ ((sceneOf σ p).dumpListing addr i?).render σ.options.color } } := by
  cases i? with
  | none | some i => exact listScene_eq_ok hp hredirect h

/-- The rows of a dump that succeeds are all written, one under the other. -/
theorem sweep_dumpInsn_eq_ok (span : SectionSpan) :
    ∀ (count : Nat) (addr : Int) {σ : Session} {p : Program} {u : Unit},
    σ.program = some p → σ.console.redirect = none → sweep dumpInsn span count addr σ = .ok u σ' →
    (∀ row ∈ Scene.dumpRows span count addr (sceneOf σ p), row.listing.result = .ok ()) ∧
      σ'.console.out = σ.console.out ++
        DumpRow.text σ.options.color (Scene.dumpRows span count addr (sceneOf σ p)) := by
  -- The session of the rest differs from the first one in the program and the console, so the scene
  -- is the same but for the program, as in the recursion of the rows.
  intro count
  induction count with
  | zero =>
    intro addr σ p u _ _ h
    cases h
    simp [Scene.dumpRows, DumpRow.text]
  | succ count ih =>
    intro addr σ p u hp hredirect h
    unfold sweep at h
    by_cases hlt : addr < span.last
    · rw [if_pos hlt] at h
      obtain ⟨i?, σ₁, hdecode, h⟩ := bind_eq_ok.mp h
      obtain ⟨_, σ₂, hwrite, h⟩ := bind_eq_ok.mp h
      obtain ⟨q, p', hq, hfetch, hσ₁⟩ := decode_eq_ok hdecode
      obtain rfl : p = q := Option.some.inj (hp.symm.trans hq)
      have hfound : p.insnAt addr (some span.start) = (i?, p') := by
        cases hfetch
        rfl
      have hscene : sceneOf σ₁ p' = { sceneOf σ p with program := p' } := by rw [hσ₁]; rfl
      have hp₁ : σ₁.program = some p' := by rw [hσ₁]
      have hredirect₁ : σ₁.console.redirect = none := by rw [hσ₁]; exact hredirect
      obtain ⟨hrow, hσ₂⟩ := dumpInsn_eq_ok hp₁ hredirect₁ hwrite
      have hscene₂ : sceneOf σ₂ p' = sceneOf σ₁ p' := by rw [hσ₂]; rfl
      have hp₂ : σ₂.program = some p' := by rw [hσ₂]; exact hp₁
      have hredirect₂ : σ₂.console.redirect = none := by rw [hσ₂]; exact hredirect₁
      obtain ⟨hrows, hout⟩ := ih (afterRow addr i?) hp₂ hredirect₂ h
      have hcolor₁ : σ₁.options = σ.options := by rw [hσ₁]
      have hcolor₂ : σ₂.options = σ.options := by rw [hσ₂]; exact hcolor₁
      have hout₁ : σ₁.console.out = σ.console.out := by rw [hσ₁]
      rw [Scene.dumpRows_next hlt hfound, ← hscene]
      rw [hscene₂] at hrows hout
      refine ⟨forall_mem_cons.mpr ⟨hrow, hrows⟩, ?_⟩
      have hout₂ : σ₂.console.out =
          σ.console.out ++ ((sceneOf σ₁ p').dumpListing addr i?).render σ.options.color := by
        rw [hσ₂, ← hout₁, ← hcolor₁]
      rw [hout, hout₂, hcolor₂, String.append_assoc, DumpRow.text_cons]
    · rw [if_neg hlt] at h
      cases h
      simp [Scene.dumpRows_end hlt, DumpRow.text]

/-! ### The place -/

theorem giveUp_ne_true : giveUp σ ≠ .ok true σ' := by
  unfold giveUp
  rw [get_bind_apply]
  split
  · intro h
    cases h
  · intro h
    cases h

theorem reportPlaceFault_ne_true (e : Stop) : reportPlaceFault e σ ≠ .ok true σ' := by
  intro h
  unfold reportPlaceFault at h
  split at h
  · obtain ⟨_, _, -, h⟩ := bind_eq_ok.mp h
    exact giveUp_ne_true h
  · obtain ⟨_, σ₁, -, h⟩ := bind_eq_ok.mp h
    rw [get_bind_apply] at h
    split at h
    · cases h
    · obtain ⟨_, _, -, h⟩ := bind_eq_ok.mp h
      obtain ⟨_, _, -, h⟩ := bind_eq_ok.mp h
      cases h
  · obtain ⟨_, _, -, h⟩ := bind_eq_ok.mp h
    exact giveUp_ne_true h
  · obtain ⟨_, _, -, h⟩ := bind_eq_ok.mp h
    exact giveUp_ne_true h
  · cases h

/-- A place that can be used is the one that was named, and it has passed the check. -/
theorem findEntry_eq_true (h : findEntry σ = .ok true σ') :
    ∃ addr σ₁ σ₂, namedAddress σ = .ok addr σ₁ ∧ checkAddress addr σ₁ = .ok () σ₂ ∧
      σ' = { σ₂ with marks := { σ₂.marks with entry := addr } } := by
  rcases tryCatch_eq_ok.mp h with h | ⟨e, σ₁, -, h⟩
  · obtain ⟨addr, σ₁, hnamed, h⟩ := bind_eq_ok.mp h
    obtain ⟨_, σ₂, hcheck, h⟩ := bind_eq_ok.mp h
    obtain ⟨_, σ₃, hmark, h⟩ := bind_eq_ok.mp h
    obtain ⟨-, rfl⟩ := pure_eq_ok.mp h
    exact ⟨addr, σ₁, σ₂, hnamed, hcheck, mark_eq_ok hmark⟩
  · exact (reportPlaceFault_ne_true e h).elim

/-- An address in hexadecimal names itself. -/
theorem namedAddress_hex {text : String} (hcalls : σ.callsSection = none)
    (hname : σ.entryName = some text) (hhex : Text.startsWith text "0x" = true)
    (h : namedAddress σ = .ok addr σ') : Text.hexadecimal? text = some addr ∧ σ' = σ := by
  unfold namedAddress at h
  rw [get_bind_apply] at h
  obtain ⟨p, σ₁, hread, h⟩ := bind_eq_ok.mp h
  obtain ⟨-, rfl⟩ := program_eq_ok.mp hread
  -- The name of the entry point of the file is no address.
  have hnot : text ≠ "EP" := by
    rintro rfl
    cases hhex
  rw [hcalls] at h
  simp only [hname, Option.some.injEq, hnot, if_false, reduceCtorEq] at h
  obtain ⟨a, σ₂, hask, h⟩ := bind_eq_ok.mp h
  obtain ⟨hresolve, rfl⟩ := ask_eq_ok.mp hask
  obtain ⟨rfl, rfl⟩ := pure_eq_ok.mp h
  simp only [Program.resolve, hhex, if_true] at hresolve
  cases hnumber : Text.hexadecimal? text with
  | none =>
    rw [hnumber] at hresolve
    cases hresolve
  | some n =>
    rw [hnumber] at hresolve
    exact ⟨congrArg some (Except.ok.inj hresolve), rfl⟩

theorem placeAndLines_eq_ok {addr count : String} {lines : Int}
    (h : Shell.placeAndLines [addr, count] σ = .ok lines σ') :
    Text.decimal? count = some lines ∧ σ' = { σ with entryName := some addr } := by
  unfold Shell.placeAndLines at h
  rw [get_bind_apply] at h
  dsimp only at h
  cases hnumber : Text.decimal? count with
  | none =>
    rw [hnumber] at h
    cases h
  | some n =>
    rw [hnumber] at h
    cases h
    exact ⟨rfl, rfl⟩

/-! ### The beginning -/

/-- The options, and what stands on the console. -/
def Wrote (options : Options) (out : String) (σ : Session) : Prop :=
  σ.options = options ∧ σ.console.out = out

section Wrote

variable {options : Options} {out : String}

theorem quiet_wrote : Quiet (Wrote options out) := fun _ _ h => h

theorem wrote_decode {α : Type} (op : Decoding α) : Keeps (Wrote options out) (decode op) :=
  keeps_decode fun _ _ _ h => h

theorem wrote_mark (f : Marks → Marks) : Keeps (Wrote options out) (mark f) :=
  Keeps.modify fun _ h => h

end Wrote

/-- The head of a dump: the name and the extent of the section at the entry. -/
def headText (color : Bool) (span : SectionSpan) : String :=
  (Listing.sectionLine span.name span.start span.last).render color

section Steady

variable {p₀ : Program} {calls : Option String} {M : Marks → Prop} (h₀ : p₀.image.Steady)

include h₀

theorem sectionHead_eq_ok (hσ : Tracks p₀ calls M σ) (h : sectionHead σ = .ok span σ') :
    (p₀.image.span σ.marks.entry).1 = some span ∧ σ'.marks = σ.marks ∧
      Wrote σ.options (σ.console.out ++ headText σ.options.color span) σ' := by
  unfold sectionHead at h
  rw [get_bind_apply] at h
  obtain ⟨found, σ₁, hat, h⟩ := bind_eq_ok.mp h
  obtain ⟨_, σ₂, hlist, h⟩ := bind_eq_ok.mp h
  obtain ⟨rfl, rfl⟩ := pure_eq_ok.mp h
  obtain ⟨p, hp, hsince⟩ := hσ.program
  obtain ⟨q, σ₃, hread, hat⟩ := bind_eq_ok.mp hat
  obtain ⟨hq, rfl⟩ := program_eq_ok.mp hread
  obtain rfl : p = q := Option.some.inj (hp.symm.trans hq)
  have hspan := (hsince.span h₀ σ.marks.entry).1
  rcases hlookup : p.span σ.marks.entry with ⟨span?, p'⟩
  rw [hlookup] at hat hspan
  obtain ⟨_, σ₄, hset, hat⟩ := bind_eq_ok.mp hat
  cases span? with
  | none => cases hat
  | some span =>
    obtain ⟨rfl, rfl⟩ := pure_eq_ok.mp hat
    have hσ₁ : σ₄ = { σ with program := some p' } := by
      cases hset
      rfl
    have hredirect : σ₄.console.redirect = none := by rw [hσ₁]; exact hσ.redirect
    obtain ⟨-, hσ₂⟩ := list_eq_ok hredirect hlist
    refine ⟨hspan.symm, ?_, ?_, ?_⟩
    · rw [hσ₂, hσ₁]
    · rw [hσ₂, hσ₁]
    · rw [hσ₂, hσ₁]
      rfl

/-- A dump at an address begins in the section that the file has there, and writes nothing but its
head. -/
theorem beginDump_eq_ok {addr count : String} {n : Nat} {entry : Int} (hM : Marks.Stable M)
    (hσ : Tracks p₀ none M σ) (hhex : Text.startsWith addr "0x" = true)
    (h : beginDump [addr, count] σ = .ok (some (span, n, entry)) σ') :
    (Text.decimal? count).map Int.toNat = some n ∧ Text.hexadecimal? addr = some entry ∧
      (p₀.image.span entry).1 = some span ∧ Tracks p₀ none M σ' ∧
      Wrote σ.options (σ.console.out ++ headText σ.options.color span) σ' := by
  have hI : Indifferent (Tracks p₀ none M) := indifferent_tracks h₀ hM
  obtain ⟨lines, σ₁, hplace, h⟩ := bind_eq_ok.mp h
  have htracks₁ := (Shell.keeps_placeAndLines hI _).of_ok hσ hplace
  obtain ⟨hlines, hσ₁⟩ := placeAndLines_eq_ok hplace
  obtain ⟨found, σ₂, hfind, hfound⟩ := bind_eq_ok.mp h
  cases found with
  | false => cases hfound
  | true =>
    have htracks₂ := hI.keeps_findEntry.of_ok htracks₁ hfind
    obtain ⟨a, σ₃, σ₄, hnamed, hcheck, hσ₂⟩ := findEntry_eq_true hfind
    have hname : σ₁.entryName = some addr := by rw [hσ₁]
    obtain ⟨haddr, rfl⟩ := namedAddress_hex htracks₁.calls hname hhex hnamed
    have hwrote₁ : Wrote σ.options σ.console.out σ₃ := by rw [hσ₁]; exact ⟨rfl, rfl⟩
    have hwrote₂ : Wrote σ.options σ.console.out σ₂ := by
      have hchecked := (keeps_checkAddress fun _ _ _ h => h).of_ok hwrote₁ hcheck
      rw [hσ₂]
      exact hchecked
    have hentry : σ₂.marks.entry = a := by rw [hσ₂]
    rw [if_pos rfl] at hfound
    obtain ⟨found, σ₅, hhead, hafter⟩ := bind_eq_ok.mp hfound
    rw [get_bind_apply] at hafter
    obtain ⟨_, σ₆, hsweep, hnamed⟩ := bind_eq_ok.mp hafter
    obtain ⟨_, σ₇, hstubs, hgiven⟩ := bind_eq_ok.mp hnamed
    obtain ⟨hend, rfl⟩ := pure_eq_ok.mp hgiven
    obtain ⟨rfl, rfl, rfl⟩ : found = span ∧ lines.toNat = n ∧ σ₅.marks.entry = entry := by
      simpa using hend
    obtain ⟨hspan, hmarks, hwrote₅⟩ := sectionHead_eq_ok h₀ htracks₂ hhead
    rw [hwrote₂.1, hwrote₂.2] at hwrote₅
    have htracks₅ := hI.keeps_sectionHead.of_ok htracks₂ hhead
    refine ⟨by rw [hlines]; rfl, ?_, ?_, ?_, ?_⟩
    · rw [hmarks, hentry]
      exact haddr
    · rw [hmarks]
      exact hspan
    · have htracks₆ := (keeps_sweep (fun addr => hI.keeps_fetch addr _)
        (keeps_tintJump hI.keeps_tint) _ _).of_ok htracks₅ hsweep
      exact hI.keeps_stubs.of_ok htracks₆ hstubs
    · have hwrote₆ := (keeps_sweep (fun addr => wrote_decode _) (keeps_tintJump fun a =>
        wrote_mark _) _ _).of_ok hwrote₅ hsweep
      exact (keeps_nameStubs quiet_wrote (wrote_decode _)).of_ok hwrote₆ hstubs

end Steady

end Act

/-! ## After a history -/

namespace Shell

open Session Act DumpRow

variable {p₀ : Program} {σ τ : Session} {line addr count : String} {span : SectionSpan}
  {rows : List DumpRow}

theorem run_dump (hline : Text.words? line = some ["dump", addr, count]) :
    run line = runDump [addr, count] := by
  have hcommand : command? "dump" =
      some ⟨"dump", 2, .dump, .symbols, [placeArgs, "Disassemble only."], true⟩ := by decide
  unfold run
  rw [hline]
  dsimp only
  rw [hcommand]
  rfl

/-- A dump at an address writes the head of the section and the rows under it. It goes over what the
decoder gives from the address on, and shows the instructions that are not left out. -/
theorem dump_eq_ok (h₀ : p₀.image.Steady) {fused : List Int}
    (hσ : Tracks p₀ none (fun m => m.fused = fused) σ)
    (hline : Text.words? line = some ["dump", addr, count])
    (hhex : Text.startsWith addr "0x" = true) (hrows : dumped? [addr, count] σ = some (span, rows))
    (hrun : run line σ = .ok () τ) :
    τ.console.out = σ.console.out ++ headText σ.options.color span ++ text σ.options.color rows ∧
      ∃ n entry, (Text.decimal? count).map Int.toNat = some n ∧
        Text.hexadecimal? addr = some entry ∧
        (p₀.image.span entry).1 = some span ∧ rows.map (·.insn?) = p₀.swept span n entry ∧
        addresses rows = (p₀.sweptAddresses span n entry).filter fun a => a ∉ fused := by
  obtain ⟨n, entry, σ', p, hbegin, hp, rfl⟩ := beginDump_of_dumped? hrows
  obtain ⟨hn, hentry, hspan, htracks, hwrote⟩ :=
    beginDump_eq_ok h₀ (Marks.stable_fused fused) hσ hhex hbegin
  obtain ⟨q, hq, hsince⟩ := htracks.program
  obtain rfl : p = q := Option.some.inj (hp.symm.trans hq)
  rw [run_dump hline, runDump_eq, whenLoaded, get_bind_apply] at hrun
  obtain ⟨p₁, hp₁, -⟩ := hσ.program
  rw [hp₁, Option.isSome_some, if_pos rfl] at hrun
  obtain ⟨started, σ₁, hbegin', hwritten⟩ := bind_eq_ok.mp hrun
  rw [hbegin] at hbegin'
  cases hbegin'
  obtain ⟨_, σ₂, hsweep, hforget⟩ := bind_eq_ok.mp hwritten
  obtain ⟨hok, hout⟩ := sweep_dumpInsn_eq_ok span n entry hp htracks.redirect hsweep
  refine ⟨?_, n, entry, hn, hentry, hspan, ?_, ?_⟩
  · have hkept : τ.console.out = σ₂.console.out := by
      cases hforget
      rfl
    rw [hkept, hout, hwrote.1, hwrote.2]
  · exact Scene.dumpRows_insns h₀ span n entry _ hsince
  · rw [Scene.addresses_dumpRows h₀ hsince hok]
    have hmarks : (sceneOf σ' p).marks.fused = fused := htracks.marks
    rw [hmarks]

/-- After any history that loads no other file, a dump at an address goes over the same instructions
as right after loading. It shows the same addresses but those of comparisons that stand in a
condition of the last analysis: all of them exactly if no such comparison is in the range, and so in
every history in which nothing is decompiled. -/
theorem dump_after_history {s σ₀ σ₁ τ₀ τ₁ : Session} (hfresh : s.Fresh) {loading : String}
    {a : Action} (hloading : action? loading = some a) (hloads : a.loads = true)
    (hload : run loading s = .ok () σ₀) (hp : σ₀.program = some p₀) (hsteady : p₀.image.Steady)
    {history : List String} (hkeeps : ∀ l ∈ history, ∀ b, action? l = some b → b.loads = false)
    (hhistory : history.forM run σ₀ = .ok () σ₁)
    (hline : Text.words? line = some ["dump", addr, count])
    (hhex : Text.startsWith addr "0x" = true) {span₀ span₁ : SectionSpan}
    {rows₀ rows₁ : List DumpRow} (hrows₀ : dumped? [addr, count] σ₀ = some (span₀, rows₀))
    (hrun₀ : run line σ₀ = .ok () τ₀) (hrows₁ : dumped? [addr, count] σ₁ = some (span₁, rows₁))
    (hrun₁ : run line σ₁ = .ok () τ₁) :
    (τ₀.console.out = σ₀.console.out ++ headText σ₀.options.color span₀ ++
      text σ₀.options.color rows₀ ∧
      τ₁.console.out = σ₁.console.out ++ headText σ₁.options.color span₁ ++
    text σ₁.options.color rows₁) ∧ (span₁ = span₀ ∧ rows₁.map (·.insn?) = rows₀.map (·.insn?)) ∧
    addresses rows₁ = (addresses rows₀).filter (fun a => a ∉ σ₁.marks.fused) ∧
    (addresses rows₁ = addresses rows₀ ↔ ∀ a ∈ addresses rows₀, a ∉ σ₁.marks.fused) ∧
    ((∀ l ∈ history, action? l ≠ some .decompile) → addresses rows₁ = addresses rows₀) := by
  have htracks₀ := (run_fresh hloading hloads hfresh hload).tracks hp hsteady
  have htracks₁ : Tracks p₀ none (fun m => m.fused = σ₁.marks.fused) σ₁ := by
    have hend := history_tracks hsteady Marks.stable_true hkeeps (fun _ _ _ _ => trivial)
      ⟨htracks₀.program, htracks₀.calls, trivial, htracks₀.forEditor, htracks₀.redirect⟩ hhistory
    exact ⟨hend.program, hend.calls, rfl, hend.forEditor, hend.redirect⟩
  -- The two dumps are not compared with each other, but each with what the decoder gives in the
  -- file as it was loaded.
  obtain ⟨hout₀, n, entry, hn, hentry, hspan₀, hinsns₀, hshown₀⟩ :=
    dump_eq_ok hsteady htracks₀ hline hhex hrows₀ hrun₀
  obtain ⟨hout₁, n', entry', hn', hentry', hspan₁, hinsns₁, hshown₁⟩ :=
    dump_eq_ok hsteady htracks₁ hline hhex hrows₁ hrun₁
  obtain rfl : n = n' := Option.some.inj (hn.symm.trans hn')
  obtain rfl : entry = entry' := Option.some.inj (hentry.symm.trans hentry')
  obtain rfl : span₀ = span₁ := Option.some.inj (hspan₀.symm.trans hspan₁)
  have hall : addresses rows₀ = p₀.sweptAddresses span₀ n entry := by simpa using hshown₀
  rw [← hall] at hshown₁
  have hsame : addresses rows₁ = addresses rows₀ ↔ ∀ a ∈ addresses rows₀, a ∉ σ₁.marks.fused := by
    rw [hshown₁, filter_eq_self]
    simp
  refine ⟨⟨hout₀, hout₁⟩, ⟨rfl, hinsns₁.trans hinsns₀.symm⟩, hshown₁, hsame, fun hquiet => ?_⟩
  have hfused : σ₁.marks.fused = [] :=
    (history_tracks hsteady (Marks.stable_fused []) hkeeps (fun l hl hx => (hquiet l hl hx).elim)
      htracks₀ hhistory).marks
  rw [hsame, hfused]
  simp

/-! ### A comparison that is not shown again -/

/-- A raw file with a comparison, a conditional jump over one instruction, and the end of the
function. -/
def comparedFile : FileContents where
  bytes := [0x90, 0x90, 0x90, 0x90]
  decoder := ⟨some .x86, [comparison 0, (OneByte.fork 3).insn 1, OneByte.run.insn 2,
    OneByte.ret.insn 3]⟩
  elf := none
  pe := none

/-- A session at the prompt that can reach the file. -/
def comparedStart : Session :=
  Session.start { Options.standard with interactive := true } ⟨[("f", .file comparedFile)]⟩

/-- The program in the file. -/
def comparedProgram : Program where
  image := .raw ⟨"x86", 0, false, comparedFile.bytes⟩
  target := ⟨.x86, .bits32, false⟩
  decoder := comparedFile.decoder
  code := ∅
  symbols := Symbols.empty

/-- The session in which the file is to be loaded. -/
def comparedNamed : Session := { comparedStart with fileName := some "f", rawType := some "x86" }

/-- The session after the file was loaded. -/
def comparedLoaded : Session := { comparedNamed with program := some comparedProgram }

/-- A file alone in the working directory is found. -/
theorem lookup_alone (f : FileContents) :
    (Files.mk [("f", .file f)]).lookup "f" = some (.file f) := by
  have hparts : Path.parts "f" = ["f"] := by decide
  have hresolve : (Files.mk [("f", .file f)]).resolve "f" = .ok (.inside ["f"], .file f) := by
    simp [Files.resolve, hparts, Files.follow, Files.entryAt, Files.split, Path.steps]
  rw [Files.lookup, hresolve]
  rfl

theorem load_compared : run "lrawx86 f" comparedStart = .ok () comparedLoaded := by
  have hwords : Text.words? "lrawx86 f" = some ["lrawx86", "f"] := by decide
  have hcommand : command? "lrawx86" = some (rawCommand "x86" "x86" true) := by decide
  have hread : readProgram comparedFile comparedNamed = .ok comparedProgram comparedNamed := rfl
  have hrun : run "lrawx86 f" = act ["f"] (.loadRaw "x86" true) := by
    unfold run
    rw [hwords]
    dsimp only
    rw [hcommand]
    rfl
  rw [hrun]
  refine bind_eq_ok.mpr ⟨(), comparedNamed, rfl, ?_⟩
  exact bind_eq_ok.mpr ⟨true, comparedLoaded, load_of_lookup (lookup_alone comparedFile) hread rfl,
    rfl⟩

/-- The session after some command lines, if all of them can be run. -/
def ranAll? (lines : List String) (σ : Session) : Option Session :=
  match lines.forM run σ with
  | .ok _ σ' => some σ'
  | .error _ _ => none

theorem forM_of_ranAll? {lines : List String} {σ σ' : Session} (h : ranAll? lines σ = some σ') :
    lines.forM run σ = .ok () σ' := by
  unfold ranAll? at h
  split at h
  · rename_i heq
    obtain rfl := Option.some.inj h
    exact heq
  · cases h

/-- The addresses that a dump shows in a session, if it can be run. -/
def dumpedAddresses? (line : String) (args : List String) (σ : Session) : Option (List Int) := do
  let _ ← ranAll? [line] σ
  let (_, rows) ← dumped? args σ
  return addresses rows

theorem exists_of_dumpedAddresses? {shown : List Int}
    (h : dumpedAddresses? line args σ = some shown) :
    ∃ τ span rows, run line σ = .ok () τ ∧ dumped? args σ = some (span, rows) ∧
      addresses rows = shown := by
  unfold dumpedAddresses? at h
  obtain ⟨τ, hτ, h⟩ := Option.bind_eq_some_iff.mp h
  obtain ⟨⟨span, rows⟩, hrows, h⟩ := Option.bind_eq_some_iff.mp h
  obtain ⟨_, τ', hrun, hend⟩ := bind_eq_ok.mp (forM_of_ranAll? hτ)
  exact ⟨τ', span, rows, hrun, hrows, Option.some.inj h⟩

/-- Both dumps of the file can be run: right after loading, and after its function was
decompiled. -/
theorem exists_compared_dumps :
    ∃ (σ₁ τ₀ τ₁ : Session) (span₀ span₁ : SectionSpan) (rows₀ rows₁ : List DumpRow),
      ["x 0x0"].forM run comparedLoaded = .ok () σ₁ ∧
      run "dump 0x0 4" comparedLoaded = .ok () τ₀ ∧
      dumped? ["0x0", "4"] comparedLoaded = some (span₀, rows₀) ∧ addresses rows₀ = [0, 1, 2] ∧
      run "dump 0x0 4" σ₁ = .ok () τ₁ ∧
      dumped? ["0x0", "4"] σ₁ = some (span₁, rows₁) ∧ addresses rows₁ = [1, 2] := by
  have hfresh : dumpedAddresses? "dump 0x0 4" ["0x0", "4"] comparedLoaded = some [0, 1, 2] := by
    decide +kernel
  have hafter : (ranAll? ["x 0x0"] comparedLoaded).bind
      (dumpedAddresses? "dump 0x0 4" ["0x0", "4"]) = some [1, 2] := by
    decide +kernel
  obtain ⟨τ₀, span₀, rows₀, hrun₀, hrows₀, hshown₀⟩ := exists_of_dumpedAddresses? hfresh
  obtain ⟨σ₁, hσ₁, hdump₁⟩ := Option.bind_eq_some_iff.mp hafter
  obtain ⟨τ₁, span₁, rows₁, hrun₁, hrows₁, hshown₁⟩ := exists_of_dumpedAddresses? hdump₁
  exact ⟨σ₁, τ₀, τ₁, span₀, span₁, rows₀, rows₁, forM_of_ranAll? hσ₁, hrun₀, hrows₀, hshown₀, hrun₁,
    hrows₁, hshown₁⟩

/-- A comparison that was shown in a condition is missing from the next dump, which still goes over
it. -/
theorem dump_after_history_compared :
    ∃ (σ₁ τ₀ τ₁ : Session) (span₀ span₁ : SectionSpan) (rows₀ rows₁ : List DumpRow),
      run "lrawx86 f" comparedStart = .ok () comparedLoaded ∧
        ["x 0x0"].forM run comparedLoaded = .ok () σ₁ ∧
      run "dump 0x0 4" comparedLoaded = .ok () τ₀ ∧ run "dump 0x0 4" σ₁ = .ok () τ₁ ∧
      dumped? ["0x0", "4"] comparedLoaded = some (span₀, rows₀) ∧
      dumped? ["0x0", "4"] σ₁ = some (span₁, rows₁) ∧ rows₁.map (·.insn?) = rows₀.map (·.insn?) ∧
      addresses rows₁ = (addresses rows₀).filter (fun a => a ∉ σ₁.marks.fused) ∧
        addresses rows₁ = [1, 2] := by
  obtain ⟨σ₁, τ₀, τ₁, span₀, span₁, rows₀, rows₁, hhistory, hrun₀, hrows₀, -, hrun₁, hrows₁,
      hshown₁⟩ :=
    exists_compared_dumps
  have haction : action? "x 0x0" = some .decompile := by decide
  have hkeeps : ∀ l ∈ ["x 0x0"], ∀ b, action? l = some b → b.loads = false := by
    intro l hl b hb
    rw [mem_singleton.mp hl, haction] at hb
    obtain rfl := Option.some.inj hb
    rfl
  obtain ⟨-, ⟨-, hinsns⟩, hfiltered, -, -⟩ :=
    dump_after_history (Session.Fresh.start _ _) (a := .loadRaw "x86" true)
      (by decide) rfl load_compared rfl trivial
      hkeeps hhistory (by decide) (by decide) hrows₀ hrun₀ hrows₁ hrun₁
  exact ⟨σ₁, τ₀, τ₁, span₀, span₁, rows₀, rows₁, load_compared, hhistory, hrun₀, hrun₁, hrows₀,
    hrows₁, hinsns, hfiltered, hshown₁⟩

/-- What a dump shows depends on what was decompiled before. -/
theorem dump_depends_on_decompiled :
    ∃ (σ₀ σ₁ τ₀ τ₁ : Session) (span₀ span₁ : SectionSpan) (rows₀ rows₁ : List DumpRow),
      run "lrawx86 f" comparedStart = .ok () σ₀ ∧ run "x 0x0" σ₀ = .ok () σ₁ ∧
      run "dump 0x0 4" σ₀ = .ok () τ₀ ∧ dumped? ["0x0", "4"] σ₀ = some (span₀, rows₀) ∧
      run "dump 0x0 4" σ₁ = .ok () τ₁ ∧ dumped? ["0x0", "4"] σ₁ = some (span₁, rows₁) ∧
      addresses rows₀ = [0, 1, 2] ∧ addresses rows₁ = [1, 2] := by
  obtain ⟨σ₁, τ₀, τ₁, span₀, span₁, rows₀, rows₁, hhistory, hrun₀, hrows₀, hshown₀, hrun₁, hrows₁,
      hshown₁⟩ :=
    exists_compared_dumps
  obtain ⟨_, σ₂, hx, hend⟩ := bind_eq_ok.mp hhistory
  obtain ⟨-, rfl⟩ := pure_eq_ok.mp hend
  exact ⟨comparedLoaded, σ₂, τ₀, τ₁, span₀, span₁, rows₀, rows₁, load_compared, hx, hrun₀, hrows₀,
    hrun₁, hrows₁, hshown₀, hshown₁⟩

end Shell

end Decompiler
