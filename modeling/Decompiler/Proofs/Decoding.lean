import Decompiler.Proofs.Lookups
import Decompiler.Proofs.OrdMap
/-!
# Decoding does not depend on what was decoded before

`Program.decode?` is the instruction that the decoder gives at an address of the image. It reads the
image and the decoder's table only, not the code decoded so far. A look-up answers it whatever has
been looked up before: the code that is kept was decoded from the same bytes (`insnAt_eq`,
`Since.fetch_eq`), if the section of an address is clear from the address (`Image.Steady`).
-/

namespace Decompiler

open List

/-! ## The decoder's answer -/

theorem Decoder.insnAt?_addr {d : Decoder} {addr : Int} {i : Insn} (h : d.insnAt? addr = some i) :
    i.addr = addr := by
  simpa using List.find?_some h

namespace Program

/-- The instruction that the decoder gives at an address of the image: the one of its table, if the
address is in a section and the bytes from there on hold it. -/
def decode? (p : Program) (addr : Int) : Option Insn :=
  if (p.image.span addr).1.isSome = true ∧ p.decoder.arch = some p.arch then
    (p.decoder.insnAt? addr).filter fun i => i.size ≤ p.image.room addr
  else none

variable {p p₀ : Program} {addr : Int} {i : Insn}

theorem decode?_eq_some :
    p.decode? addr = some i ↔
      (p.image.span addr).1.isSome = true ∧ p.decoder.arch = some p.arch ∧
        p.decoder.insnAt? addr = some i ∧ i.size ≤ p.image.room addr := by
  unfold decode?
  split
  · rename_i h
    simp [Option.filter_eq_some_iff, h.1, h.2]
  · rename_i h
    constructor
    · intro h'
      cases h'
    · rintro ⟨h₁, h₂, -⟩
      exact (h ⟨h₁, h₂⟩).elim

theorem decode?_addr (h : p.decode? addr = some i) : i.addr = addr :=
  Decoder.insnAt?_addr (decode?_eq_some.mp h).2.2.1

/-- `p` is the program `p₀` after some look-ups: of the same file, for the same machine and decoder,
and with no code but what the decoder gives. The symbols may have changed. -/
structure Since (p₀ p : Program) : Prop where
  image : p₀.image.Recalls p.image
  target : p.target = p₀.target
  decoder : p.decoder = p₀.decoder
  code : ∀ addr i, p.code.get? addr = some i →
    p₀.decoder.insnAt? addr = some i ∧
    ((p₀.image.span addr).1.isSome = true → p₀.decode? addr = some i)

theorem Since.refl (h : p.image.Steady)
    (hcode : ∀ addr i, p.code.get? addr = some i → p.decode? addr = some i) : Since p p where
  image := Image.Recalls.refl h
  target := rfl
  decoder := rfl
  code addr i hi := ⟨(decode?_eq_some.mp (hcode addr i hi)).2.2.1, fun _ => hcode addr i hi⟩

/-! ## Fetching -/

/-- What is decoded in one go from an address on is what the decoder gives at each of the addresses
passed. The room that is left shrinks by the size of every instruction, and is never more than a
read from there would give. -/
theorem decode?_of_mem_run (h : p.image.Steady) (harch : p.decoder.arch = some p.arch) :
    ∀ (fuel : Nat) (addr room : Int),
      (0 < room → (p.image.span addr).1.isSome = true ∧ room ≤ p.image.room addr) →
      i ∈ p.decoder.run fuel addr room →
      p.decoder.insnAt? i.addr = some i ∧
        ((p.image.span i.addr).1.isSome = true → p.decode? i.addr = some i) := by
  intro fuel
  induction fuel with
  | zero => intro addr room _ hi; cases hi
  | succ fuel ih =>
    intro addr room hroom hi
    unfold Decoder.run at hi
    cases hj : p.decoder.insnAt? addr with
    | none =>
      rw [hj] at hi
      cases hi
    | some j =>
      have hja : j.addr = addr := Decoder.insnAt?_addr hj
      have hsize : (0 : Int) ≤ j.size := Int.natCast_nonneg _
      have hnonneg := p.image.room_nonneg addr
      simp only [hj] at hi
      split at hi
      · rename_i hfits
        rcases mem_cons.mp hi with rfl | hi
        · refine ⟨hja ▸ hj, fun hspan => ?_⟩
          rw [hja] at hspan ⊢
          refine decode?_eq_some.mpr ⟨hspan, harch, hj, ?_⟩
          by_cases hpos : 0 < room
          · have := (hroom hpos).2
            omega
          · omega
        · refine ih j.next (room - j.size) (fun hpos => ?_) hi
          have hle := (hroom (by omega)).2
          have hlt : (j.bytes.length : Int) < p.image.room addr := by
            simp only [Insn.size] at hpos
            omega
          have hadv := Image.room_advance h hlt
          rw [Insn.next, hja]
          simp only [Insn.size] at hpos ⊢
          exact ⟨hadv.1, by omega⟩
      · cases hi

theorem get?_storeNew {l : List Insn} :
    ∀ {code : OrdMap Int Insn}, (storeNew code l).get? addr = some i →
      code.get? addr = some i ∨ (i ∈ l ∧ i.addr = addr) := by
  induction l with
  | nil => intro code h; exact .inl h
  | cons j rest ih =>
    intro code h
    unfold storeNew at h
    split at h
    · exact .inl h
    · rcases ih h with h | ⟨hmem, ha⟩
      · rcases OrdMap.of_get?_insert h with ⟨hj, rfl⟩ | h
        · exact .inr ⟨.head _, hj⟩
        · exact .inl h
      · exact .inr ⟨mem_cons_of_mem j hmem, ha⟩

section Since

variable {p₀ p : Program} (h₀ : p₀.image.Steady) (h : Since p₀ p)

include h₀ h

theorem Since.span (addr : Int) :
    (p.span addr).1 = (p₀.image.span addr).1 ∧ Since p₀ (p.span addr).2 := by
  obtain ⟨heq, himage⟩ := h.image.span h₀ addr
  exact ⟨heq, himage, h.target, h.decoder, h.code⟩

theorem Since.read (addr size : Int) :
    (p.read addr size).1 = (p₀.image.read addr size).1 ∧ Since p₀ (p.read addr size).2 := by
  obtain ⟨heq, himage⟩ := h.image.read h₀ addr size
  exact ⟨heq, himage, h.target, h.decoder, h.code⟩

omit h₀ in
theorem Since.arch : p.arch = p₀.arch := congrArg Target.arch h.target

/-- Decoding a run of instructions keeps no code but what the decoder gives. -/
theorem Since.store (harch : p₀.decoder.arch = some p₀.arch) {addr : Int}
    (hspan : (p₀.image.span addr).1.isSome = true) {first : Insn} {rest : List Insn}
    (hrun : p₀.decoder.run (batch + 1) addr (p₀.image.room addr) = first :: rest) :
    Since p₀ { p with code := storeNew (p.code.insert first.addr first) rest } := by
  have hmem : ∀ i ∈ first :: rest, p₀.decoder.insnAt? i.addr = some i ∧
      ((p₀.image.span i.addr).1.isSome = true → p₀.decode? i.addr = some i) := by
    intro i hi
    rw [← hrun] at hi
    exact decode?_of_mem_run h₀ harch (batch + 1) addr _ (fun _ => ⟨hspan, le_refl _⟩) hi
  refine { h with code := fun a i hi => ?_ }
  rcases get?_storeNew hi with hold | ⟨hnew, rfl⟩
  · rcases OrdMap.of_get?_insert hold with ⟨rfl, rfl⟩ | hold
    · exact hmem first (.head _)
    · exact h.code a i hold
  · exact hmem i (mem_cons_of_mem first hnew)

end Since

/-- The instruction that the decoder gives at an address, if that is in the section which starts at
a given place. -/
def decodeWithin? (p : Program) (addr : Int) (within : Option Int) : Option Insn :=
  if (p.image.span addr).1.any (fun s => within.all (· = s.start)) then p.decode? addr else none

theorem decodeWithin?_none (p : Program) (addr : Int) :
    p.decodeWithin? addr none = p.decode? addr := by
  unfold decodeWithin? decode?
  cases (p.image.span addr).1 with
  | none | some s => rfl

/-- A look-up answers what the decoder gives at the address, whatever was looked up before. -/
theorem insnAt_eq (h₀ : p₀.image.Steady) (h : Since p₀ p) (addr : Int) (within : Option Int) :
    ∃ p', p.insnAt addr within = (p₀.decodeWithin? addr within, p') ∧ Since p₀ p' := by
  obtain ⟨hspan, h₁⟩ := h.span h₀ addr
  obtain ⟨hread, h₂⟩ := h₁.read h₀ addr batch
  simp only [insnAt]
  cases hs : (p.span addr).1 with
  | none =>
    refine ⟨(p.span addr).2, ?_, h₁⟩
    rw [hs] at hspan
    simp [decodeWithin?, ← hspan]
  | some s =>
    have hsome : (p₀.image.span addr).1 = some s := by rw [← hspan, hs]
    have hdecoded : p₀.decodeWithin? addr within = if within.any (· ≠ s.start) then none
        else p₀.decode? addr := by
      cases within with
      | none => simp [decodeWithin?, hsome]
      | some start =>
        by_cases hstart : start = s.start
        · simp [decodeWithin?, hsome, hstart]
        · simp [decodeWithin?, hsome, hstart]
    rw [hdecoded]
    dsimp only
    split
    · exact ⟨(p.span addr).2, rfl, h₁⟩
    · have hisSome : (p₀.image.span addr).1.isSome = true := by rw [hsome]; rfl
      cases hcode : (p.span addr).2.code.get? addr with
      | some i =>
        refine ⟨(p.span addr).2, ?_, h₁⟩
        rw [(h₁.code addr i hcode).2 hisSome]
      | none =>
        simp only [h₂.decoder, h₂.arch, hread]
        by_cases harch : p₀.decoder.arch = some p₀.arch
        · simp only [harch, ne_eq, not_true_eq_false, if_false]
          cases hrun : p₀.decoder.run (batch + 1) addr (p₀.image.read addr batch).1.length with
          | nil =>
            refine ⟨((p.span addr).2.read addr batch).2, ?_, h₂⟩
            have hnone : p₀.decode? addr = none := by
              rw [Option.eq_none_iff_forall_ne_some]
              intro i hi
              obtain ⟨-, -, hat, hfits⟩ := decode?_eq_some.mp hi
              have hfits' : i.size ≤ ((p₀.image.read addr batch).1.length : Int) := hfits
              simp [Decoder.run, hat, hfits'] at hrun
            rw [hnone]
          | cons first rest =>
            refine ⟨_, ?_, h₂.store h₀ harch hisSome hrun⟩
            have hfirst : p₀.decode? addr = some first := by
              unfold Decoder.run at hrun
              cases hat : p₀.decoder.insnAt? addr with
              | none => simp [hat] at hrun
              | some i =>
                simp only [hat] at hrun
                split at hrun
                · rename_i hfits
                  obtain ⟨rfl, -⟩ := cons.inj hrun
                  exact decode?_eq_some.mpr ⟨hisSome, harch, hat, hfits⟩
                · cases hrun
            simp only [hfirst, h₂.decoder]
        · refine ⟨((p.span addr).2.read addr batch).2, ?_, h₂⟩
          simp [harch, decode?]

/-- A fetch answers what the decoder gives at the address, whatever was fetched before. -/
theorem Since.fetch_eq (h₀ : p₀.image.Steady) (h : Since p₀ p) (addr : Int) (within : Option Int) :
    ∃ p', fetch addr within p = .ok (p₀.decodeWithin? addr within) p' ∧ Since p₀ p' := by
  obtain ⟨p', hlookup, hsince⟩ := insnAt_eq h₀ h addr within
  exact ⟨p', by simp only [fetch, hlookup], hsince⟩

theorem fetch_eq (h₀ : p₀.image.Steady) (h : Since p₀ p) (addr : Int) :
    ∃ p', fetch addr none p = .ok (p₀.decode? addr) p' ∧ Since p₀ p' := by
  simpa only [decodeWithin?_none] using h.fetch_eq h₀ addr none

/-- A fetch of a jump's target answers what the decoder gives there, and fails where it gives
nothing. -/
theorem fetchTarget_eq (h₀ : p₀.image.Steady) (h : Since p₀ p) (addr : Int) :
    ∃ p', Since p₀ p' ∧ fetchTarget addr p =
      match p₀.decode? addr with
      | some i => .ok i p'
      | none => .error .undecodable p' := by
  obtain ⟨p', hf, h'⟩ := fetch_eq h₀ h addr
  refine ⟨p', h', ?_⟩
  simp only [fetchTarget, bind, EStateM.bind, hf]
  cases p₀.decode? addr <;> rfl

end Program

end Decompiler
