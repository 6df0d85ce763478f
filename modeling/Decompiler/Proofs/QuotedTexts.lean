import Decompiler.Image.Elf
import Decompiler.Image.Pe
import Mathlib.Tactic
/-!
# Texts in data sections

A PE image reads a text as one of two-byte characters until a byte stands where a zero is due, and
then it begins anew with characters of one byte. An ELF image knows only the latter. Where no zero
stands at the first place that one is due, both images give the same text (`Pe.scanText_plain`,
`Pe.scanText_narrow`). A text of two-byte characters is read to its end, and the zeros in it do not
count against the limit (`Pe.scanText_wide`). `Pe.stringAt_reads_both` puts this together for the
addresses of a section.
-/

namespace Decompiler

open List

/-- How a text of two-byte characters is stored, if the second byte of each is zero. -/
def wideBytes (chars : List UInt8) : List UInt8 := chars.flatMap fun c => [c, 0]

/-- A text as it is shown: its pieces between quotation marks, and dots if it was cut short. -/
def quoted (pieces : List String) (cut : Bool) : String :=
  "\"" ++ String.join pieces ++ (if cut then "...\"" else "\"")

/-! ## The scan -/

namespace Pe

/-- One step of the scan, as long as there is room and a byte. -/
theorem scanText_cons (wide odd : Bool) (limit : Nat) (last b : UInt8) (rest : List UInt8) :
    scanText wide (b :: rest).length (limit + 1 : Nat) odd last (b :: rest) =
      if b = 0 then
        if wide && odd then scanText wide rest.length (limit + 1 : Nat)
      (!odd) b rest else .ok (.found [] false) else if wide && odd then .ok .notWide
      else (scanText wide rest.length limit (!odd) b rest).map
        (TextScan.cons (Text.byteText b.toNat)) := by
  have hlimit : ¬ ((limit + 1 : Nat) : Int) ≤ 0 := by omega
  have hnext : ((limit + 1 : Nat) : Int) - 1 = limit := by omega
  rw [length_cons, scanText, if_neg hlimit, hnext]

/-- Without room for a character the text is cut short, unless there is no more of it. -/
theorem scanText_zero (wide odd : Bool) {last : UInt8} (hlast : last ≠ 0) (bytes : List UInt8) :
    scanText wide bytes.length (0 : Nat) odd last bytes = .ok (.found [] !bytes.isEmpty) := by
  cases bytes <;> simp [scanText, hlast]

/-- Read as characters of one byte, the rest of a section gives what it gives in an ELF image. If
there is no room to begin with, the byte before must not be a zero. -/
theorem scanText_narrow :
    ∀ (bytes : List UInt8) (limit : Nat) (odd : Bool) (last : UInt8), (limit = 0 → last ≠ 0) →
    scanText false bytes.length limit odd last bytes =
      .ok (.found (Elf.scanText limit bytes).1 (Elf.scanText limit bytes).2) := by
  intro bytes
  induction bytes with
  | nil =>
    intro limit odd last _
    cases limit <;> rfl
  | cons b rest ih =>
    intro limit odd last hlast
    cases limit with
    | zero => exact scanText_zero false odd (hlast rfl) (b :: rest)
    | succ limit =>
      rw [scanText_cons, Bool.false_and, Elf.scanText]
      by_cases hb : b = 0
      · rw [if_pos hb, if_pos hb]
        rfl
      · rw [if_neg hb, if_neg hb, ih limit (!odd) b fun _ => hb]
        rfl

/-- If neither of the first two bytes is a zero, then they are found not to be a two-byte character,
or the text ends before this shows and is the same in both ways. -/
theorem scanText_plain {bytes : List UInt8} (h : 0 ∉ bytes.take 2) (limit : Nat) (last : UInt8) :
    scanText true bytes.length (limit + 1 : Nat) false last bytes = .ok .notWide ∨
      scanText true bytes.length (limit + 1 : Nat) false last bytes =
        scanText false bytes.length (limit + 1 : Nat) false last bytes := by
  rcases bytes with _ | ⟨b₀, _ | ⟨b₁, rest⟩⟩
  · exact .inr rfl
  · exact .inr (by rw [scanText_cons, scanText_cons]; rfl)
  · obtain ⟨h₀, h₁⟩ : b₀ ≠ 0 ∧ b₁ ≠ 0 := by simpa [eq_comm] using h
    cases limit with
    | zero =>
      refine .inr ?_
      rw [scanText_cons true, scanText_cons false, if_neg h₀, if_neg h₀, scanText_zero true _ h₀,
        scanText_zero false _ h₀]
      rfl
    | succ limit =>
      refine .inl ?_
      rw [scanText_cons, if_neg h₀, if_neg (by decide), scanText_cons, if_neg h₁]
      rfl

/-- A text of two-byte characters is read up to the zero behind it. The induction is over its
characters: one step of the scan reads the character and one the zero after it. -/
theorem scanText_wide (rest : List UInt8) :
    ∀ (chars : List UInt8) (limit : Nat) (last : UInt8), (∀ c ∈ chars, c ≠ 0) →
    chars.length < limit →
    scanText true (wideBytes chars ++ 0 :: rest).length limit false last
      (wideBytes chars ++ 0 :: rest) =
      .ok (.found (chars.map fun c => Text.byteText c.toNat) false) := by
  intro chars
  induction chars with
  | nil =>
    intro limit last _ hlimit
    obtain ⟨limit, rfl⟩ : ∃ k, limit = k + 1 := ⟨limit - 1, (Nat.sub_add_cancel hlimit).symm⟩
    rw [wideBytes, flatMap_nil, nil_append, scanText_cons]
    rfl
  | cons c chars ih =>
    intro limit last hchars hlimit
    obtain ⟨hc, hchars⟩ := forall_mem_cons.mp hchars
    rw [length_cons] at hlimit
    obtain ⟨limit, rfl⟩ : ∃ k, limit = k + 2 := ⟨limit - 2, by omega⟩
    have hbytes : wideBytes (c :: chars) ++ 0 :: rest = c :: 0 :: (wideBytes chars ++ 0 :: rest) :=
      rfl
    rw [hbytes, scanText_cons, if_neg hc, if_neg (by decide), scanText_cons, if_pos rfl,
      if_pos (by decide), Bool.not_false, Bool.not_true, ih (limit + 1) 0 hchars (by omega)]
    rfl

end Pe

/-! ## Texts at addresses -/

theorem Elf.stringAt_eq {e : Elf} {t : ElfSection} {addr : Int}
    (ht : e.sections.find? (fun t => t.isData && t.contains addr) = some t) (limit : Nat) :
    e.stringAt addr (limit + 1 : Nat) =
      quoted (Elf.scanText (limit + 1) ((e.content t).drop (addr - t.addr).toNat)).1
        (Elf.scanText (limit + 1) ((e.content t).drop (addr - t.addr).toNat)).2 := by
  have hlimit : ¬ ((limit + 1 : Nat) : Int) ≤ 0 := by omega
  simp only [Elf.stringAt, ht, if_neg hlimit, Int.toNat_natCast]
  rfl

namespace Pe

/-- The bytes of a section from an address on. -/
def bytesFrom (p : Pe) (s : PeSection) (addr : Int) : List UInt8 :=
  (p.content s).drop (addr - s.addr - p.base).toNat

/-- A section is all in the file. -/
def Whole (p : Pe) (s : PeSection) : Prop := ((p.content s).length : Int) = s.size

instance (p : Pe) (s : PeSection) : Decidable (p.Whole s) := inferInstanceAs (Decidable (_ = _))

section Addresses

variable {p : Pe} {s : PeSection} {addr : Int}

/-- In a section that is all in the file, the scan has the bytes that it counts on. -/
theorem room_eq (hs : p.dataSection? addr = some s) (hwhole : p.Whole s) :
    (s.size - (addr - s.addr - p.base)).toNat = (p.bytesFrom s addr).length := by
  have hholds := List.find?_some hs
  simp only [PeSection.holds, Bool.and_eq_true, decide_eq_true_eq] at hholds
  rw [bytesFrom, length_drop, ← hwhole]
  omega

/-- The text is what the scan for two-byte characters finds and, if it finds none, what the other
one finds. -/
theorem stringAt_of_scan (hs : p.dataSection? addr = some s) (hwhole : p.Whole s) {limit : Nat}
    {pieces : List String} {cut : Bool}
    (hscan : scanText true (p.bytesFrom s addr).length (limit + 1 : Nat) false 0
      (p.bytesFrom s addr) = .ok (.found pieces cut) ∨
        scanText true (p.bytesFrom s addr).length (limit + 1 : Nat) false 0 (p.bytesFrom s addr) =
          .ok .notWide ∧ scanText false (p.bytesFrom s addr).length (limit + 1 : Nat) false 0
            (p.bytesFrom s addr) = .ok (.found pieces cut)) :
    p.stringAt addr (limit + 1 : Nat) = .ok (quoted pieces cut) := by
  have hlimit : ¬ ((limit + 1 : Nat) : Int) ≤ 0 := by omega
  simp only [stringAt, hs, if_neg hlimit, room_eq hs hwhole]
  change (scanText true _ _ _ _ (p.bytesFrom s addr) >>= _) = _
  rcases hscan with hscan | ⟨hscan, hagain⟩
  · rw [hscan]
    rfl
  · rw [hscan]
    change (scanText false _ _ _ _ (p.bytesFrom s addr) >>= _) = _
    rw [hagain]
    rfl

end Addresses

/-- Whatever an address of a data section that is all in the file holds, with room for any number of
characters. If neither of the first two bytes is a zero, then the text is the one that an ELF image
gives for a data section with the same contents. And if two-byte characters stand there, fewer than
there is room for, with a zero as the second byte of each and two zeros behind them, then the text
is made of these characters. -/
theorem stringAt_reads_both (p : Pe) (s : PeSection) (addr max : Int)
    (hs : p.dataSection? addr = some s) (hwhole : p.Whole s) (hmax : 1 ≤ max) :
    (0 ∉ (p.bytesFrom s addr).take 2 → ∀ (e : Elf) (t : ElfSection) (addr' : Int),
      e.sections.find? (fun t => t.isData && t.contains addr') = some t →
        e.content t = p.content s →
      addr' - t.addr = addr - s.addr - p.base → p.stringAt addr max = .ok (e.stringAt addr' max)) ∧
    (∀ chars : List UInt8, (∀ c ∈ chars, c ≠ 0) → 1 ≤ chars.length → chars.length < max →
      wideBytes chars ++ [0, 0] <+: p.bytesFrom s addr →
      p.stringAt addr max = .ok ("\"" ++ String.join (chars.map fun c => Text.byteText c.toNat) ++
        "\"")) := by
  obtain ⟨limit, rfl⟩ : ∃ k : Nat, max = (k + 1 : Nat) := ⟨(max - 1).toNat, by omega⟩
  constructor
  · intro hplain e t addr' ht hcontent hoffset
    have hnarrow := scanText_narrow (p.bytesFrom s addr) (limit + 1) false 0 (by simp)
    rw [Elf.stringAt_eq ht, hcontent, hoffset]
    rcases scanText_plain hplain limit 0 with hscan | hscan
    · exact stringAt_of_scan hs hwhole (.inr ⟨hscan, hnarrow⟩)
    · exact stringAt_of_scan hs hwhole (.inl (hscan.trans hnarrow))
  · intro chars hchars _ hfew hwide
    obtain ⟨rest, hrest⟩ := hwide
    have hbytes : p.bytesFrom s addr = wideBytes chars ++ 0 :: (0 :: rest) := by simp [← hrest]
    have hscan := scanText_wide (0 :: rest) chars (limit + 1) 0 hchars (by omega)
    rw [← hbytes] at hscan
    exact stringAt_of_scan hs hwhole (.inl hscan)

/-- Two data sections, one after the other: `hi` in characters of two bytes, and `ok` in characters
of one byte. -/
def twoTexts : Pe where
  machine := 0x14c
  magic := 0x10b
  base := 0x400000
  alignment := 0x1000
  entry := 0
  symbolOffset := 0
  symbolCount := 0
  sections := [⟨".data", 0x1000, 6, 0x40, 0x1000, 0x2000, 2, 8⟩,
    ⟨".rdata", 0x2000, 3, 0x40, 0x2000, 0x2003, 8, 11⟩]
  imports := .missing
  file := [0x4d, 0x5a, 0x68, 0, 0x69, 0, 0, 0, 0x6f, 0x6b, 0]
  seen := []

/-- An ELF file with the second of these sections. -/
def oneText : Elf where
  machine := "x86"
  wordBits := 32
  bigEndian := false
  entry := 0
  sections := [⟨".data", 0x100, 3, 4, 3, [], []⟩]
  file := [0x7f, 0x45, 0x4c, 0x46, 0x6f, 0x6b, 0]
  seen := []

/-- Both texts are read in full, if there is room for three characters. -/
theorem stringAt_reads_both_two :
    twoTexts.stringAt 0x401000 3 = .ok "\"hi\"" ∧
      twoTexts.stringAt 0x402000 3 = .ok (oneText.stringAt 0x100 3) ∧
      oneText.stringAt 0x100 3 = "\"ok\"" := by
  have hwide := (stringAt_reads_both twoTexts ⟨".data", 0x1000, 6, 0x40, 0x1000, 0x2000, 2,
    8⟩ 0x401000 3 (by decide)
    (by decide) (by decide)).2 [0x68, 0x69] (by simp) (by decide) (by decide) (by decide)
  have hplain := (stringAt_reads_both twoTexts ⟨".rdata", 0x2000, 3, 0x40, 0x2000, 0x2003, 8,
    11⟩ 0x402000 3
    (by decide) (by decide) (by decide)).1 (by decide) oneText ⟨".data", 0x100, 3, 4, 3, [],
      []⟩ 0x100 (by decide) (by decide) (by decide)
  exact ⟨hwide, hplain, by decide⟩

end Pe

end Decompiler
