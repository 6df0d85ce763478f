import Decompiler.Proofs.SectionBytes
/-!
# Dumps of words

A dump of words goes over the bytes of a section in blocks of 64 words. `WordRow.shown` says which
rows it gives, for every width, number of lines and number of bytes (`WordRow.ofProgram_eq`). They
are the words of the section up to the last, and then the bytes that are left, each at its own
address (`WordRow.exactLines`), exactly if the lines end before the section does or the words fill
it (`Act.dumpWords_shows_iff`). For the end of a section is taken to be the address of its last
byte: a byte that is left alone there is not shown, and neither is the last one in a dump of bytes.
Of two or more bytes that are left, all those of the last block are shown, each at the address of
the first one left.
-/

namespace Decompiler

open List

variable {rest : List UInt8} {syms : Symbols}

namespace WordRow

/-- The address in front of a row. -/
def addr : WordRow → Int
  | word addr _ => addr
  | tail addr _ => addr

/-- The number that a row shows, in the given byte order. -/
def value (big : Bool) : WordRow → Nat
  | word _ bytes => wordValue big bytes
  | tail _ byte => byte.toNat

/-- The address and the number of a row. -/
def line (big : Bool) (row : WordRow) : Int × Nat := (row.addr, row.value big)

/-- The first words of some bytes, which begin at an address. -/
def words (width count : Nat) (addr : Int) (bytes : List UInt8) : List WordRow :=
  (List.range count).map fun k => word (addr + (k * width : Nat))
    ((bytes.drop (k * width)).take width)

/-- The addresses and values of a dump that shows a section exactly: its words, and if there are
lines left the bytes behind them, each at its own address. -/
def exactLines (big : Bool) (width lines : Nat) (addr : Int) (bytes : List UInt8) :
    List (Int × Nat) :=
  let count := bytes.length / width
  (List.range (min lines count)).map
      (fun k => (addr + (k * width : Nat), wordValue big ((bytes.drop (k * width)).take width))) ++
    if count < lines then
      (bytes.drop (count * width)).mapIdx fun k byte =>
        (addr + (count * width + k : Nat), byte.toNat)
    else []

/-- The number of words that are shown if there are lines enough: of single bytes all but the
last. -/
def wordCount (width length : Nat) : Nat := if width = 1 then length - 1 else length / width

/-- What is shown behind the words: all bytes of the last block, if two or more of them are left. -/
def leftover (width : Nat) (addr : Int) (bytes : List UInt8) : List WordRow :=
  if 2 ≤ bytes.length % width then
    (bytes.drop (bytes.length / width / 64 * 64 * width)).map
      (tail (addr + (bytes.length / width * width : Nat)))
  else []

/-- The rows of a dump. -/
def shown (width lines : Nat) (addr : Int) (bytes : List UInt8) : List WordRow :=
  words width (min lines (wordCount width bytes.length)) addr bytes ++
    if wordCount width bytes.length < lines then leftover width addr bytes else []

/-! ## Words -/

section Words

variable {width : Nat} {addr : Int} {bytes : List UInt8}

@[simp] theorem words_zero : words width 0 addr bytes = [] := rfl

@[simp] theorem length_words (count : Nat) :
    (words width count addr bytes).length = count := by simp [words]

theorem words_add (count more : Nat) : words width (count + more) addr bytes =
    words width count addr bytes ++ words width more (addr + (count * width : Nat))
      (bytes.drop (count * width)) := by
  simp only [words, range_add, map_append, map_map, drop_drop]
  congr 1
  refine map_congr_left fun k _ => ?_
  simp only [Function.comp_apply, add_mul, Nat.cast_add, add_assoc]

theorem words_succ (count : Nat) : words width (count + 1) addr bytes =
    word addr (bytes.take width) :: words width count (addr + width) (bytes.drop width) := by
  rw [add_comm, words_add, one_mul]
  simp [words]

/-- Words that are in the front part of some bytes. -/
theorem words_take {count n : Nat} (h : count * width ≤ n) :
    words width count addr (bytes.take n) = words width count addr bytes := by
  refine map_congr_left fun k hk => ?_
  have hroom : (k + 1) * width ≤ n := le_trans (Nat.mul_le_mul_right _ (mem_range.mp hk)) h
  rw [add_mul, one_mul] at hroom
  rw [drop_take, take_take, min_eq_left (by omega)]

section

variable (hwidth : 0 < width)
include hwidth

theorem wordCount_mul_le (n : Nat) : wordCount width n * width ≤ n := by
  unfold wordCount
  split
  · subst width
    omega
  · exact Nat.div_mul_le_self _ _

theorem le_wordCount {count : Nat} (h : count * width < bytes.length) :
    count ≤ wordCount width bytes.length := by
  unfold wordCount
  split
  · subst width
    omega
  · exact (Nat.le_div_iff_mul_le hwidth).mpr h.le

/-- The words that are shown begin before the last byte. -/
theorem mul_add_one_lt {k : Nat} (hk : k < wordCount width bytes.length) :
    k * width + 1 < bytes.length := by
  unfold wordCount at hk
  split at hk
  · subst width
    omega
  · have hfit : (k + 1) * width ≤ bytes.length :=
      le_trans (Nat.mul_le_mul_right _ hk) (Nat.div_mul_le_self _ _)
    rw [add_mul, one_mul] at hfit
    omega

/-- Bytes that are left behind more than a block are left behind the rest of it. -/
theorem leftover_drop (hlong : 64 * width ≤ bytes.length) :
    leftover width (addr + (64 * width : Nat)) (bytes.drop (64 * width)) =
      leftover width addr bytes := by
  obtain ⟨n, hn⟩ := Nat.exists_eq_add_of_le' hlong
  have hblocks : (n / width + 64) / 64 * 64 = 64 + n / width / 64 * 64 := by omega
  simp only [leftover, length_drop, hn, Nat.add_sub_cancel, Nat.add_mul_mod_self_right,
    Nat.add_mul_div_right _ _ hwidth, drop_drop, hblocks]
  rw [add_mul, add_mul, Nat.cast_add, add_assoc, add_comm ((64 * width : Nat) : Int)]

end

/-- A dump of more than a block is the block and a dump of the rest. -/
theorem shown_block (lines : Nat) (hwidth : 0 < width) (hlong : 64 * width < bytes.length) :
    shown width (64 + lines) addr bytes =
      words width 64 addr bytes ++ shown width lines (addr + (64 * width : Nat))
        (bytes.drop (64 * width)) := by
  have hcount : wordCount width bytes.length = 64 +
      wordCount width (bytes.drop (64 * width)).length := by
    obtain ⟨n, hn⟩ := Nat.exists_eq_add_of_le' hlong.le
    rw [length_drop, hn, Nat.add_sub_cancel]
    unfold wordCount
    split
    · omega
    · rw [Nat.add_mul_div_right _ _ hwidth, add_comm]
  unfold shown
  rw [leftover_drop hwidth hlong.le, hcount]
  generalize wordCount width (bytes.drop (64 * width)).length = count
  have hlines : min (64 + lines) (64 + count) = 64 + min lines count := by omega
  have hmore : 64 + count < 64 + lines ↔ count < lines := by omega
  rw [hlines, words_add, append_assoc]
  simp only [hmore]

end Words

/-! ## Blocks -/

section Blocks

variable {width room : Nat} {last addr : Int} {block : List UInt8}

theorem ofBlock_succ (hrest : rest ≠ []) : ofBlock width last block (room + 1) addr rest =
    if last ≤ addr then ([], false)
    else if ((rest.take width).length : Int) ≠ width then (block.map (tail addr), false)
    else
      (word addr (rest.take width) ::
        (ofBlock width last block room (addr + width) (rest.drop width)).1,
        (ofBlock width last block room (addr + width) (rest.drop width)).2) := by
  rw [ofBlock]
  · rfl
  · exact hrest

/-- At the last address a block ends, and with it the dump. -/
theorem ofBlock_last {width : Int} (h : last ≤ addr) (hrest : rest ≠ []) :
    ofBlock width last block room addr rest = ([], false) := by
  cases room with
  | zero => rw [ofBlock]
  | succ room =>
    rw [ofBlock, if_pos h]
    exact hrest

/-- Whole words in front of the last address are shown one after the other, as many as there is room
for. -/
theorem ofBlock_words (hwidth : 0 < width) : ∀ {count room : Nat} {addr : Int} {rest : List UInt8},
    count * width ≤ rest.length → (∀ k < count, addr + (k * width : Nat) < last) →
    ofBlock width last block room addr rest =
      (words width (min room count) addr rest ++
          (ofBlock width last block (room - count) (addr + (count * width : Nat))
            (rest.drop (count * width))).1,
        (ofBlock width last block (room - count) (addr + (count * width : Nat))
          (rest.drop (count * width))).2) := by
  intro count
  induction count with
  | zero =>
    intro room addr rest _ _
    simp
  | succ count ih =>
    intro room addr rest hfit hbefore
    rcases room with _ | room
    · simp [ofBlock]
    rw [add_mul, one_mul] at hfit
    have hfirst : ¬ last ≤ addr := by
      have := hbefore 0 (by omega)
      simp only [zero_mul, Nat.cast_zero, add_zero] at this
      omega
    have hlength : (rest.take width).length = width := by
      rw [length_take]
      omega
    have hrest : rest ≠ [] := by
      rintro rfl
      simp only [length_nil] at hfit
      omega
    have hnext := @ih room (addr + width) (rest.drop width) (by rw [length_drop]; omega) (by
      intro k hk
      have := hbefore (k + 1) (by omega)
      rw [add_mul, one_mul] at this
      push_cast at this ⊢
      omega)
    have haddr : addr + width + (count * width : Nat) = addr + ((count + 1) * width : Nat) := by
      push_cast
      ring
    rw [ofBlock_succ hrest, if_neg hfirst, if_neg (by rw [hlength]; simp), hnext, Nat.succ_min_succ,
      words_succ, haddr, drop_drop, add_comm width, ← Nat.succ_mul, Nat.succ_sub_succ]
    rfl

end Blocks

/-! ## Dumps -/

section Dumps

variable {width : Nat} {last addr : Int} {bytes : List UInt8}

/-- What the last block of a dump gives behind its words. -/
theorem ofBlock_left (hwidth : 0 < width) (hne : bytes ≠ [])
    (hlast : last + 1 = addr + bytes.length) (hshort : bytes.length ≤ 64 * width) (room : Nat) :
    (ofBlock width last bytes (room + 1) (addr + (wordCount width bytes.length * width : Nat))
      (bytes.drop (wordCount width bytes.length * width))).1 = leftover width addr bytes := by
  have hpos : 0 < bytes.length := length_pos_iff.mpr hne
  by_cases hone : width = 1
  · -- Of single bytes the last one is left.
    subst hone
    have hcount : wordCount 1 bytes.length * 1 = bytes.length - 1 := by simp [wordCount]
    have hdrop : bytes.drop (bytes.length - 1) ≠ [] := by
      rw [ne_eq, drop_eq_nil_iff]
      omega
    rw [hcount, ofBlock_last (by omega) hdrop, leftover, if_neg (by omega)]
  · have hcount : wordCount width bytes.length = bytes.length / width := if_neg hone
    have hsplit := Nat.div_add_mod' bytes.length width
    have hmod := Nat.mod_lt bytes.length hwidth
    rw [hcount]
    by_cases hleft : bytes.drop (bytes.length / width * width) = []
    · rw [hleft, ofBlock, leftover, if_neg (by rw [drop_eq_nil_iff] at hleft; omega)]
      exact Nat.succ_ne_zero room
    · by_cases htwo : 2 ≤ bytes.length % width
      · have htake : (((bytes.drop (bytes.length / width * width)).take width).length : Int) ≠
            width := by
          rw [length_take, length_drop]
          omega
        -- There is a word less than a block has, so the bytes are all in one block.
        have hblocks : bytes.length / width / 64 = 0 := by
          by_contra hsome
          have hmany := Nat.mul_le_mul_right width (show 64 ≤ bytes.length / width by omega)
          omega
        rw [ofBlock_succ hleft, if_neg (by omega), if_pos htake, leftover, if_pos htwo, hblocks,
          zero_mul, zero_mul, drop_zero]
      · rw [ofBlock_last _ hleft, leftover, if_neg htwo]
        rw [drop_eq_nil_iff] at hleft
        omega

/-- The last block of a dump, which reaches to the end of the section. -/
theorem ofBlock_end (hwidth : 0 < width) (hne : bytes ≠ []) (hlast : last + 1 = addr + bytes.length)
    (hshort : bytes.length ≤ 64 * width) (room : Nat) :
    (ofBlock width last bytes room addr bytes).1 = shown width room addr bytes := by
  have hbefore : ∀ k < wordCount width bytes.length, addr + (k * width : Nat) < last := by
    intro k hk
    have := mul_add_one_lt hwidth hk
    omega
  rw [ofBlock_words hwidth (wordCount_mul_le hwidth bytes.length) hbefore, shown]
  by_cases hroom : wordCount width bytes.length < room
  · obtain ⟨more, hmore⟩ := Nat.exists_eq_succ_of_ne_zero (Nat.sub_ne_zero_of_lt hroom)
    rw [if_pos hroom, hmore, ofBlock_left hwidth hne hlast hshort]
  · rw [if_neg hroom, Nat.sub_eq_zero_of_le (Nat.le_of_not_lt hroom), ofBlock]

/-- A whole block in front of others gives its words, and the dump goes on if there are lines
left. -/
theorem ofBlock_whole (hwidth : 0 < width) (hlast : last + 1 = addr + bytes.length)
    (hlong : 64 * width < bytes.length) (room : Nat) :
    ofBlock width last (bytes.take (64 * width)) room addr (bytes.take (64 * width)) =
      (words width (min room 64) addr bytes, decide (64 < room)) := by
  have hlength : (bytes.take (64 * width)).length = 64 * width := by
    rw [length_take]
    omega
  have hbefore : ∀ k < 64, addr + (k * width : Nat) < last := by
    intro k hk
    have hfit := Nat.mul_le_mul_right width (Nat.succ_le_of_lt hk)
    rw [Nat.succ_mul] at hfit
    omega
  rw [ofBlock_words hwidth hlength.ge hbefore, drop_of_length_le hlength.le,
    words_take (Nat.mul_le_mul_right width (min_le_right room 64))]
  by_cases hroom : 64 < room
  · rw [ofBlock, append_nil, decide_eq_true hroom]
    exact Nat.sub_ne_zero_of_lt hroom
  · rw [Nat.sub_eq_zero_of_le (Nat.le_of_not_lt hroom), ofBlock, append_nil, decide_eq_false hroom]

end Dumps

section Programs

variable {last addr : Int} {p : Program} {width : Int}

/-- A dump reads a block, gives its rows, and goes on if the block says so. -/
theorem ofProgram_succ (blocks room : Nat) {block : List UInt8} {p' : Program}
    (hread : p.read addr (width * blockWords) = (block, p')) :
    ofProgram width last (blocks + 1) (room + 1) addr p =
      if block = [] then ([], p')
      else if (ofBlock width last block (room + 1) addr block).2 = true then
        ((ofBlock width last block (room + 1) addr block).1 ++
            (ofProgram width last blocks (room + 1 -
              (ofBlock width last block (room + 1) addr block).1.length)
              (addr + block.length) p').1,
          (ofProgram width last blocks (room + 1 -
            (ofBlock width last block (room + 1) addr block).1.length) (addr + block.length) p').2)
      else ((ofBlock width last block (room + 1) addr block).1, p') := by
  rw [ofProgram, hread]
  exact Nat.succ_ne_zero room

theorem ofProgram_no_room (blocks : Nat) : ofProgram width last blocks 0 addr p = ([], p) := by
  cases blocks with
  | zero => rw [ofProgram]
  | succ blocks => rw [ofProgram]; exact Nat.succ_ne_zero blocks

/-- Nothing is shown from the last address on. -/
theorem ofProgram_last (h : last ≤ addr) (blocks room : Nat) :
    (ofProgram width last blocks room addr p).1 = [] ∧
      p.Recalls (ofProgram width last blocks room addr p).2 := by
  cases blocks with
  | zero => exact ⟨by rw [ofProgram], by rw [ofProgram]; exact .refl p⟩
  | succ blocks =>
    cases room with
    | zero =>
      rw [ofProgram_no_room]
      exact ⟨rfl, .refl p⟩
    | succ room =>
      have hrecalls := p.recalls_read addr (width * blockWords)
      rcases hread : p.read addr (width * blockWords) with ⟨block, p'⟩
      rw [hread] at hrecalls
      rw [ofProgram_succ blocks room hread]
      by_cases hblock : block = []
      · rw [if_pos hblock]
        exact ⟨rfl, hrecalls⟩
      · rw [if_neg hblock, ofBlock_last h hblock]
        exact ⟨rfl, hrecalls⟩

/-- The rows of a dump of words, for every width and number of lines. -/
theorem ofProgram_eq {width : Nat} (hwidth : 0 < width) :
    ∀ (blocks : Nat) {room : Nat} {addr : Int} {bytes : List UInt8},
    room ≤ blocks → bytes ≠ [] → last + 1 = addr + bytes.length → p.image.Holds addr bytes →
    (ofProgram width last blocks room addr p).1 = shown width room addr bytes ∧
      p.Recalls (ofProgram width last blocks room addr p).2 := by
  -- A whole block takes 64 of the lines, so that there are always at least as many blocks as lines
  -- left.
  intro blocks
  induction blocks with
  | zero =>
    intro room addr bytes hroom _ _ _
    obtain rfl : room = 0 := by omega
    rw [ofProgram_no_room]
    exact ⟨by simp [shown], .refl p⟩
  | succ blocks ih =>
    intro room addr bytes hroom hne hlast hholds
    have hpos : 0 < bytes.length := length_pos_iff.mpr hne
    cases room with
    | zero =>
      rw [ofProgram_no_room]
      exact ⟨by simp [shown], .refl p⟩
    | succ room =>
      have hread : p.read addr (width * blockWords) = (bytes.take (64 * width), p) := by
        have hsize : (width : Int) * blockWords = (64 * width : Nat) := by
          rw [blockWords]
          push_cast
          ring
        rw [hsize, Program.read_of_holds hholds hne]
      have hblock : bytes.take (64 * width) ≠ [] := by
        refine ne_nil_of_length_pos ?_
        rw [length_take]
        omega
      rw [ofProgram_succ blocks room hread, if_neg hblock]
      by_cases hlong : 64 * width < bytes.length
      · rw [ofBlock_whole hwidth hlast hlong]
        by_cases hmore : 64 < room + 1
        · have hlength : (bytes.take (64 * width)).length = 64 * width := by
            rw [length_take]
            omega
          obtain ⟨lines, hlines⟩ := Nat.exists_eq_add_of_le hmore.le
          have hrest : bytes.drop (64 * width) ≠ [] := by
            rw [ne_eq, drop_eq_nil_iff]
            omega
          obtain ⟨hrows, hrecalls⟩ := @ih lines (addr + (64 * width : Nat))
            (bytes.drop (64 * width)) (by omega) hrest
            (by rw [length_drop]; omega) (hholds.drop (64 * width))
          rw [if_pos (decide_eq_true hmore), hlines, shown_block lines hwidth hlong, hlength,
            length_words, min_eq_right (by omega), Nat.add_sub_cancel_left, hrows]
          exact ⟨rfl, hrecalls⟩
        · have hcount := le_wordCount hwidth hlong
          rw [if_neg (by simpa using hmore), shown, min_eq_left (by omega), min_eq_left (by omega),
            if_neg (by omega), append_nil]
          exact ⟨rfl, .refl p⟩
      · have hwhole : bytes.take (64 * width) = bytes := take_of_length_le (by omega)
        rw [hwhole, ofBlock_end hwidth hne hlast (by omega)]
        split
        · obtain ⟨hnone, hrecalls⟩ :=
            @ofProgram_last last (addr + bytes.length) p width (by omega) blocks
            (room + 1 - (shown width (room + 1) addr bytes).length)
          rw [hnone, append_nil]
          exact ⟨rfl, hrecalls⟩
        · exact ⟨rfl, .refl p⟩

end Programs

/-! ## Exact dumps -/

section Exact

variable {width : Nat} {addr : Int} {bytes : List UInt8}

/-- The bytes that are left are shown exactly only if there are none. -/
theorem leftover_exact_iff (big : Bool) :
    (leftover width addr bytes).map (line big) = (bytes.drop (bytes.length / width * width)).mapIdx
        (fun k byte => (addr + (bytes.length / width * width + k : Nat), byte.toNat)) ↔
      width ∣ bytes.length := by
  have hsplit := Nat.div_add_mod' bytes.length width
  have hleft : (bytes.drop (bytes.length / width * width)).length = bytes.length % width := by
    rw [length_drop]
    omega
  constructor
  · intro h
    by_contra hnot
    have hmod : bytes.length % width ≠ 0 := fun hzero => hnot (Nat.dvd_of_mod_eq_zero hzero)
    by_cases htwo : 2 ≤ bytes.length % width
    · -- The second row shows the address of the first one again.
      have hblock : bytes.length / width / 64 * 64 * width ≤ bytes.length / width * width :=
        Nat.mul_le_mul_right width (Nat.div_mul_le_self _ _)
      have hsecond : bytes.length / width / 64 * 64 * width + 1 < bytes.length := by omega
      have hother : bytes.length / width * width + 1 < bytes.length := by omega
      have hrow := congrArg (·[1]?) h
      rw [leftover, if_pos htwo] at hrow
      simp [line, WordRow.addr, hsecond, hother] at hrow
    · have hlength := congrArg List.length h
      rw [leftover, if_neg htwo, map_nil, length_nil, length_mapIdx, hleft] at hlength
      exact hmod hlength.symm
  · intro h
    have hmod : bytes.length % width = 0 := Nat.mod_eq_zero_of_dvd h
    have hnone : bytes.drop (bytes.length / width * width) = [] :=
      length_eq_zero_iff.mp (hleft.trans hmod)
    rw [leftover, if_neg (by omega), hnone]
    rfl

theorem map_line_words (big : Bool) (count : Nat) : (words width count addr bytes).map (line big) =
    (List.range count).map fun k =>
      (addr + (k * width : Nat), wordValue big ((bytes.drop (k * width)).take width)) := by
  rw [words, map_map]
  rfl

/-- A dump shows its section exactly if and only if its lines end before the last byte, or behind
the last whole word, or if the words, of two bytes or more, fill the section. -/
theorem shown_exact_iff (big : Bool) (hne : bytes ≠ []) (lines : Nat) :
    (shown width lines addr bytes).map (line big) = exactLines big width lines addr bytes ↔
      if width = 1 then lines < bytes.length else lines ≤ bytes.length / width ∨
        width ∣ bytes.length := by
  have hpos : 0 < bytes.length := length_pos_iff.mpr hne
  simp only [shown, exactLines, map_append, map_line_words]
  by_cases hone : width = 1
  · -- Both show the bytes in order; they differ in the last one.
    subst hone
    rw [if_pos rfl]
    simp only [wordCount, if_true, Nat.div_one]
    constructor
    · intro h
      have hlength := congrArg List.length h
      by_contra hnot
      rw [if_pos (by omega), leftover, if_neg (by omega)] at hlength
      simp only [length_append, length_map, length_range, map_nil, length_nil] at hlength
      omega
    · intro h
      rw [if_neg (by omega), if_neg (by omega), min_eq_left (by omega), min_eq_left (by omega)]
      rfl
  · -- The words are the same, so that it is on what stands behind them.
    have hcount : wordCount width bytes.length = bytes.length / width := if_neg hone
    rw [if_neg hone, hcount, append_cancel_left_eq]
    by_cases hmore : bytes.length / width < lines
    · rw [if_pos hmore, if_pos hmore, leftover_exact_iff big]
      constructor
      · exact .inr
      · rintro (h | h)
        · omega
        · exact h
    · rw [if_neg hmore, if_neg hmore]
      exact ⟨fun _ => .inl (by omega), fun _ => rfl⟩

end Exact

end WordRow

/-! ## Loaded programs -/

/-- Every symbol has a name. -/
def Symbols.Named (syms : Symbols) : Prop := ∀ addr, syms.byAddr.get? addr ≠ some none

theorem Symbols.Named.define (h : syms.Named) (name : String) (addr : Int) :
    (syms.define (some name) addr).Named := by
  intro x
  rw [Symbols.define, OrdMap.get?_insert]
  split
  · simp
  · exact h x

/-- The symbols that a raw or an ELF file lists have names; only imports by number have none. -/
theorem Image.symbols_named {img : Image} (hpe : img.isPe = false) (h : img.symbols = .ok syms) :
    syms.Named := by
  have hempty : Symbols.empty.Named :=
    fun addr => by simp [Symbols.empty, EmptyCollection.emptyCollection]
  cases img with
  | raw r =>
    cases h
    exact hempty
  | elf e => exact Elf.symbols_of_define (fun name addr hsyms => hsyms.define name addr) hempty h
  | pe p => cases hpe

/-- A program as it is read from its file: its target is the one that the file names, and all its
symbols have names. -/
structure Program.FromFile (p : Program) : Prop where
  target : p.image.target = .ok (some p.target)
  named : p.symbols.Named

theorem Act.readProgram_fromFile {f : FileContents} {σ σ' : Session} {p : Program}
    (h : Act.readProgram f σ = .ok p σ') (hpe : p.image.isPe = false) : p.FromFile := by
  obtain ⟨-, htarget, hsymbols, -⟩ := Act.readProgram_eq_ok h
  exact ⟨htarget, Image.symbols_named hpe hsymbols⟩

/-- The byte order of a file. -/
def Image.bigEndian : Image → Bool
  | .raw r => r.bigEndian
  | .elf e => e.bigEndian
  | .pe _ => false

theorem Raw.target_bigEndian {r : Raw} {t : Target} (h : (Image.raw r).target = .ok (some t)) :
    t.bigEndian = r.bigEndian := by
  change r.target.map some = _ at h
  unfold Raw.target at h
  split at h <;> cases h <;> rfl

theorem Elf.target_bigEndian {e : Elf} {t : Target} (h : e.target = .ok (some t)) :
    t.bigEndian = e.bigEndian := by
  unfold Elf.target at h
  split at h
  on_goal 4 => split_ifs at h
  all_goals cases h <;> rfl

theorem Program.FromFile.bigEndian {p : Program} (h : p.FromFile) (hpe : p.image.isPe = false) :
    p.target.bigEndian = p.image.bigEndian := by
  have htarget := h.target
  cases himage : p.image with
  | raw r =>
    rw [himage] at htarget
    exact Raw.target_bigEndian htarget
  | elf e =>
    rw [himage] at htarget
    exact Elf.target_bigEndian htarget
  | pe q =>
    rw [himage] at hpe
    cases hpe

/-! ## Rows -/

/-- A text is that of a row: the address and the number, in front of them a line with the symbol of
the address if it has one, and behind them where the number points to if it does. -/
def Scene.WordText (s : Scene) (big : Bool) (row : WordRow) (text : String) : Prop :=
  ∃ lead note, text = lead ++
    ((s.addressInk row.addr).paint s.options.color (Text.hex row.addr ++ ": ") ++
      ("0x" ++ Text.hexSigned 2 (row.value big) ++ (note ++ "\n"))) ∧
    (s.program.symbols.isNamed row.addr = false → lead = "") ∧
    (s.program.image.sectionOf? (row.value big) = none → note = "")

section Rows

open Listing

variable {s : Scene}

section

variable (hnamed : s.program.symbols.Named)
include hnamed

theorem Scene.writes_symbolOf (color : Bool) (addr : Int) :
    ∃ text, (s.symbolOf addr).Writes color text := by
  unfold Scene.symbolOf
  cases hname : s.program.symbols.byAddr.get? addr with
  | none => exact ⟨"", rfl, rfl⟩
  | some name =>
    cases name with
    | none => exact absurd hname (hnamed addr)
    | some name => exact ⟨_, writes_put color _⟩

/-- The front of a row of a word, in front of anything. -/
theorem Scene.writes_wordFront (addr : Int) (value : Nat) (rest : Listing Unit) (note : String)
    (hrest : rest.Writes s.options.color (note ++ "\n")) :
    ∃ lead, Listing.Writes s.options.color
        (if s.program.symbols.isNamed addr = true then do
          s.symbolOf addr
          newline
          s.address addr 0 true
          write ("0x" ++ Text.hexSigned 2 value)
          rest
        else do
          s.address addr 0 true
          write ("0x" ++ Text.hexSigned 2 value)
          rest)
        (lead ++ ((s.addressInk addr).paint s.options.color (Text.hex addr ++ ": ") ++
          ("0x" ++ Text.hexSigned 2 value ++ (note ++ "\n")))) ∧
      (s.program.symbols.isNamed addr = false → lead = "") := by
  have hnumber := (writes_write s.options.color ("0x" ++ Text.hexSigned 2 value)).bind
    (f := fun _ => rest) hrest
  have hline := (s.writes_address s.options.color addr).bind (f := fun _ => write _ >>= fun _ =>
    rest) hnumber
  by_cases hsymbol : s.program.symbols.isNamed addr = true
  · obtain ⟨name, hname⟩ := Scene.writes_symbolOf hnamed s.options.color addr
    have hlead := hname.bind (f := fun _ => newline >>= fun _ => s.address addr 0 true >>=
      fun _ => _) ((writes_newline s.options.color).bind (f := fun _ => _) hline)
    rw [if_pos hsymbol]
    refine ⟨name ++ "\n", ?_, fun h => absurd hsymbol (by simp [h])⟩
    rw [String.append_assoc]
    exact hlead
  · rw [if_neg hsymbol]
    exact ⟨"", by simpa using hline, fun _ => rfl⟩

/-- Where a number points to can be written. -/
theorem Scene.writes_pointed (sec : String) (wide : Bool) (value : Int) :
    ∃ note, Listing.Writes s.options.color
      (if sec ∉ unaddressed then do
        write " ("
        ink .sectionName sec
        write ")"
        if (wide && s.program.symbols.isNamed value) = true then do
          write " "
          s.symbolOf value
          newline
        else newline
      else newline)
      (note ++ "\n") := by
  have hnewline := writes_newline s.options.color
  have hsection : ∀ (rest : Listing Unit) (note : String),
      rest.Writes s.options.color (note ++ "\n") →
      ∃ note, Listing.Writes s.options.color (do write " ("; ink .sectionName sec; write ")"; rest)
      (note ++ "\n") := by
    intro rest note hrest
    refine ⟨" (" ++ (Ink.role .sectionName).paint s.options.color sec ++ ")" ++ note, ?_⟩
    simp only [String.append_assoc]
    exact (writes_write s.options.color " (").bind
      ((writes_put s.options.color (.text (.role .sectionName) sec)).bind
      ((writes_write s.options.color ")").bind hrest))
  split
  · split
    · obtain ⟨name, hname⟩ := Scene.writes_symbolOf hnamed s.options.color value
      refine hsection _ (" " ++ name) ?_
      rw [String.append_assoc]
      exact (writes_write s.options.color " ").bind (hname.bind hnewline)
    · exact hsection _ "" hnewline
  · exact ⟨"", hnewline⟩

/-- Every row of whole words and of single bytes can be written. -/
theorem Scene.writes_wordRow (row : WordRow)
    (hwidth : ∀ addr bytes, row = .word addr bytes → bytes.length ∈ [1, 2, 4, 8]) :
    ∃ text, (s.wordRow row).Writes s.options.color text ∧
      s.WordText s.program.target.bigEndian row text := by
  cases row with
  | tail addr byte =>
    have hnumber := (writes_write s.options.color ("0x" ++ Text.hexSigned 2 byte.toNat)).bind
      (f := fun _ => newline) (writes_newline s.options.color)
    refine ⟨_, (s.writes_address s.options.color addr).bind hnumber, "", "", ?_, fun _ => rfl,
      fun _ => rfl⟩
    simp [WordRow.addr, WordRow.value]
  | word addr bytes =>
    have hknown : ¬ bytes.length ∉ [1, 2, 4, 8] := not_not.mpr (hwidth addr bytes rfl)
    unfold Scene.wordRow
    simp only [hknown, if_false]
    cases hsection : s.program.image.sectionOf? (wordValue s.program.target.bigEndian bytes) with
    | none =>
      obtain ⟨lead, hlead, hnone⟩ :=
        Scene.writes_wordFront hnamed addr (wordValue s.program.target.bigEndian bytes)
        newline "" (writes_newline s.options.color)
      exact ⟨_, hlead, lead, "", rfl, hnone, fun _ => rfl⟩
    | some found =>
      obtain ⟨note, hnote⟩ := Scene.writes_pointed hnamed found.1 (4 ≤ bytes.length)
        (wordValue s.program.target.bigEndian bytes)
      obtain ⟨lead, hlead, hnone⟩ :=
        Scene.writes_wordFront hnamed addr (wordValue s.program.target.bigEndian bytes) _ note hnote
      refine ⟨_, hlead, lead, note, rfl, hnone, fun h => ?_⟩
      cases hsection.symm.trans h

end

end Rows

theorem WordRow.length_of_mem_shown {width lines : Nat} {addr : Int} {bytes : List UInt8}
    (hwidth : 0 < width) {x : Int} {word : List UInt8}
    (h : .word x word ∈ shown width lines addr bytes) : word.length = width := by
  rcases mem_append.mp h with h | h
  · obtain ⟨k, hk, hrow⟩ := mem_map.mp h
    obtain ⟨-, rfl⟩ := WordRow.word.inj hrow
    have hfit : (k + 1) * width ≤ wordCount width bytes.length * width :=
      Nat.mul_le_mul_right width (lt_of_lt_of_le (mem_range.mp hk) (min_le_right _ _))
    have hcount := wordCount_mul_le hwidth bytes.length
    rw [add_mul, one_mul] at hfit
    rw [length_take, length_drop]
    omega
  · unfold leftover at h
    split at h
    · split at h
      · obtain ⟨byte, -, hrow⟩ := mem_map.mp h
        cases hrow
      · cases h
    · cases h

/-- A dump of words succeeds. It writes the name and the extent of its section, and then the rows of
`WordRow.shown`. These show the section exactly if and only if the lines end before the last byte
(of single bytes), or the lines end with the last whole word or the words fill the section (of words
of two bytes or more). -/
theorem Act.dumpWords_shows_iff {σ : Session} {p : Program} {bytes : List UInt8} {lines width : Nat}
    (hp : σ.program = some p) (hfile : p.FromFile) (hrest : p.image.Rest σ.marks.entry bytes)
    (hwidth : width ∈ [1, 2, 4, 8]) :
    (∃ (span : SectionSpan) (image : Image) (text : WordRow → String),
      (p.image.span σ.marks.entry).1 = some span ∧ span.last + 1 = σ.marks.entry + bytes.length ∧
        p.image.SameFile image ∧
      Act.dumpWords lines width σ = .ok () (({ σ with program := some { p with image } }.printed
        ((Listing.sectionLine span.name span.start span.last).render σ.options.color)).printed
        (String.join ((WordRow.shown width lines σ.marks.entry bytes).map text))) ∧
      ∀ row ∈ WordRow.shown width lines σ.marks.entry bytes, (Act.sceneOf σ p).WordText
        p.image.bigEndian row (text row)) ∧
    ((WordRow.shown width lines σ.marks.entry bytes).map (WordRow.line p.image.bigEndian) =
        WordRow.exactLines p.image.bigEndian width lines σ.marks.entry bytes ↔
      if width = 1 then lines < bytes.length else lines ≤ bytes.length / width ∨
        width ∣ bytes.length) := by
  obtain ⟨span, image₁, hspan, hlast, hne, hholds, hsame⟩ := hrest.span
  have hpos : 0 < width := by
    rcases (by simpa using hwidth : width = 1 ∨ width = 2 ∨ width = 4 ∨ width = 8)
      with h | h | h | h <;> omega
  refine ⟨?_, WordRow.shown_exact_iff p.image.bigEndian hne lines⟩
  obtain ⟨hrows, image₂, hprogram, hrecalls⟩ :=
    WordRow.ofProgram_eq (p := { p with image := image₁ }) hpos lines le_rfl hne hlast hholds
  have hsame₂ : p.image.SameFile image₂ := hrecalls p.image hsame
  have hpe := hrest.isPe
  -- The rows are written from a program that differs from the first one only in what its image
  -- remembers.
  have htext : ∀ row : WordRow, ∃ text, row ∈ WordRow.shown width lines σ.marks.entry bytes →
      ((sceneOf σ { p with image := image₂ }).wordRow row).Writes σ.options.color text ∧
        (sceneOf σ p).WordText p.image.bigEndian row text := by
    intro row
    by_cases hrow : row ∈ WordRow.shown width lines σ.marks.entry bytes
    · obtain ⟨text, hwrites, hform⟩ :=
        Scene.writes_wordRow (s := sceneOf σ { p with image := image₂ }) hfile.named row (by
        rintro x word rfl
        rw [WordRow.length_of_mem_shown hpos hrow]
        exact hwidth)
      refine ⟨text, fun _ => ⟨hwrites, ?_⟩⟩
      rw [← hfile.bigEndian hpe]
      rw [Scene.WordText] at hform ⊢
      simp only [sceneOf, hsame₂.sectionOf?] at hform
      exact hform
    · exact ⟨"", fun h => absurd h hrow⟩
  choose text htext using htext
  refine ⟨span, image₂, text, by rw [hspan], hlast, hsame₂, ?_, fun row hrow => (htext row hrow).2⟩
  exact dump_eq (fun span entry q => WordRow.ofProgram width span.last lines lines entry q)
    Scene.wordRow hp
    (by rw [Program.span, hspan]) (Prod.ext hrows hprogram) fun row hrow => (htext row hrow).1

/-- Three words of seven bytes are shown exactly, if no more than three lines are asked for. The
program is the one that is read from the file. -/
theorem Act.dumpWords_shows_iff_seven :
    let bytes : List UInt8 := [1, 2, 3, 4, 5, 6, 7]
    let p : Program :=
      ⟨.elf (Elf.ofData bytes), ⟨.x86, .bits32, false⟩, ⟨none, []⟩, ∅, Symbols.empty⟩
    let σ := Session.viewing p.image 0x100
    σ.program = some p ∧ p.FromFile ∧ p.image.Rest σ.marks.entry bytes ∧ 2 ∈ [1, 2, 4, 8] ∧
    (∃ σ', Act.dumpWords 3 2 σ = .ok () σ') ∧
    (WordRow.shown 2 3 0x100 bytes).map (WordRow.line false) =
      [(0x100, 0x0201), (0x102, 0x0403), (0x104, 0x0605)] ∧
    (WordRow.shown 2 3 0x100 bytes).map (WordRow.line false) =
      WordRow.exactLines false 2 3 0x100 bytes := by
  intro bytes p σ
  have hrest : p.image.Rest σ.marks.entry bytes := Elf.ofData_rest (by decide)
  have hload : ∃ σ', Act.readProgram ⟨(Elf.ofData bytes).file, ⟨none, []⟩, some (Elf.ofData bytes),
      none⟩ σ = .ok p σ' :=
    ⟨_, rfl⟩
  have hfile : p.FromFile := Act.readProgram_fromFile hload.choose_spec rfl
  obtain ⟨⟨span, image, text, -, -, -, hdump, -⟩, hexact⟩ :=
    @Act.dumpWords_shows_iff σ p bytes 3 2 rfl hfile hrest (by decide)
  exact ⟨rfl, hfile, hrest, by decide, ⟨_, hdump⟩, by decide, hexact.mpr (.inl (by decide))⟩

/-- Of seven bytes, the three behind the first word of four are not shown each at its address: all
seven are shown again, and all at the address of the first of the three. -/
theorem Act.dumpWords_repeats_block :
    let bytes : List UInt8 := [1, 2, 3, 4, 5, 6, 7]
    (endState (Act.dumpWords 9 4 (Session.viewing (.elf (Elf.ofData bytes)) 0x100))).console.out =
      ".data                [ 0x100 - 0x106 - 6 ]\n0x100: 0x4030201\n" ++
        "0x104: 0x01\n0x104: 0x02\n0x104: 0x03\n0x104: 0x04\n0x104: 0x05\n0x104: 0x06\n0x104: 0x07\n" ∧
    WordRow.exactLines false 4 9 0x100 bytes = [(0x100, 0x04030201), (0x104, 5), (0x105, 6),
      (0x106, 7)] ∧
    (WordRow.shown 4 9 0x100 bytes).map (WordRow.line false) ≠
      WordRow.exactLines false 4 9 0x100 bytes := by
  refine ⟨by decide +kernel, by decide, by decide⟩

end Decompiler
