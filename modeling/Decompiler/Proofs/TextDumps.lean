import Decompiler.Proofs.SectionBytes
import Mathlib.Data.List.DropRight
/-!
# Dumps of texts

A dump of texts goes over the bytes of a section in blocks of 128. A run of printable bytes that
reaches the end of a block is carried over to the next one. `TextRow.Dropped` says which bytes no
row shows, however many lines there are: the last byte of the section, the run of printable bytes in
front of its end, and of every run that goes over the end of a block and is not a text the part in
front of the last such end. `Act.dumpTexts_covers_iff` says that these are all. Everything else is
shown once, in the order of the addresses.

The proof follows the position of the dump and the beginning of what is carried
(`TextRow.Standing`). What is still to come from there on has to show just the bytes that are not
dropped (`TextRow.Shows`), whether in this block or in a later one (`TextRow.BlockEnd.Leads`).
-/

namespace Decompiler

open List

variable {bytes after : List UInt8}

namespace TextRow

/-! ## Runs of printable bytes -/

section Runs

variable {bytes : List UInt8}

/-- A byte that may be part of a text. -/
def printable (b : UInt8) : Bool := Text.isPrintable b.toNat

theorem isPrintable_eq : (fun c : UInt8 => Text.isPrintable c.toNat) = printable := rfl

/-- There is a printable byte at a place. -/
def printableAt (bytes : List UInt8) (k : Nat) : Bool := bytes[k]?.any printable

/-- Where the run of printable bytes that a place is in ends. A place that is in none is the end
itself. -/
def runStop (bytes : List UInt8) (k : Nat) : Nat := k + ((bytes.drop k).takeWhile printable).length

/-- Where the run of printable bytes in front of a place begins. -/
def runStart (bytes : List UInt8) (k : Nat) : Nat :=
  k - ((bytes.take k).rtakeWhile printable).length

/-- All bytes from a place on to another are printable. -/
def Run (bytes : List UInt8) (i k : Nat) : Prop := ∀ j, i ≤ j → j < k → printableAt bytes j = true

/-- No run of printable bytes goes on at a place. -/
def Begins (bytes : List UInt8) (k : Nat) : Prop := k = 0 ∨ printableAt bytes (k - 1) = false

variable {k i : Nat}

theorem printableAt_of_lt (hk : k < bytes.length) : printableAt bytes k = printable bytes[k] := by
  rw [printableAt, List.getElem?_eq_getElem hk, Option.any_some]

theorem lt_length_of_printableAt (h : printableAt bytes k = true) : k < bytes.length := by
  by_contra hge
  rw [printableAt, List.getElem?_eq_none (by omega)] at h
  cases h

theorem le_runStop (bytes : List UInt8) (k : Nat) : k ≤ runStop bytes k := Nat.le_add_right _ _

theorem runStop_le (hk : k ≤ bytes.length) : runStop bytes k ≤ bytes.length := by
  have hle := (List.takeWhile_prefix printable (l := bytes.drop k)).length_le
  rw [length_drop] at hle
  unfold runStop
  omega

theorem runStop_of_not (h : printableAt bytes k = false) : runStop bytes k = k := by
  unfold runStop
  by_cases hk : k < bytes.length
  · rw [printableAt_of_lt hk] at h
    rw [drop_eq_getElem_cons hk, takeWhile_cons_of_neg (by simp [h])]
    rfl
  · rw [drop_eq_nil_of_le (by omega)]
    rfl

theorem runStop_succ (h : printableAt bytes k = true) :
    runStop bytes (k + 1) = runStop bytes k := by
  have hk := lt_length_of_printableAt h
  rw [printableAt_of_lt hk] at h
  unfold runStop
  rw [drop_eq_getElem_cons hk, takeWhile_cons_of_pos h, length_cons]
  omega

theorem Run.trans {m : Nat} (h : Run bytes i k) (hm : Run bytes k m) : Run bytes i m := by
  intro j hi hj
  by_cases hk : j < k
  · exact h j hi hk
  · exact hm j (by omega) hj

/-- What is the same at a printable byte and behind it is the same along a run. -/
theorem Run.eq_of_succ {f : Nat → Nat} (hf : ∀ {k}, printableAt bytes k = true → f (k + 1) = f k)
    (h : Run bytes i k) (hle : i ≤ k) : f k = f i := by
  induction k, hle using Nat.le_induction with
  | base => rfl
  | succ k hle ih =>
    rw [hf (h k hle k.lt_succ_self)]
    exact ih fun j hi hj => h j hi (by omega)

theorem Run.runStop_eq (h : Run bytes i k) (hle : i ≤ k) : runStop bytes k = runStop bytes i :=
  h.eq_of_succ runStop_succ hle

theorem runStart_of_begins (hk : k ≤ bytes.length) (h : Begins bytes k) : runStart bytes k = k := by
  unfold runStart
  cases k with
  | zero => rfl
  | succ k =>
    have hnot : ¬ printable bytes[k] = true := by
      have hlast : printableAt bytes k = false := h.resolve_left (by omega)
      rw [printableAt_of_lt (by omega)] at hlast
      simp [hlast]
    rw [take_add_one, List.getElem?_eq_getElem (by omega), Option.toList_some,
      rtakeWhile_concat_neg _ _ _ hnot]
    rfl

theorem runStart_succ (h : printableAt bytes k = true) :
    runStart bytes (k + 1) = runStart bytes k := by
  have hk := lt_length_of_printableAt h
  rw [printableAt_of_lt hk] at h
  have hle := (rtakeWhile_suffix printable (bytes.take k)).length_le
  rw [length_take] at hle
  unfold runStart
  rw [take_add_one, List.getElem?_eq_getElem hk, Option.toList_some, rtakeWhile_concat_pos _ _ _ h,
    length_append, length_singleton]
  omega

theorem Run.runStart_eq (h : Run bytes i k) (hle : i ≤ k) : runStart bytes k = runStart bytes i :=
  h.eq_of_succ runStart_succ hle

/-- A byte is not shown: it is the last one of the section, or its run reaches to the end of the
section, or its run goes on behind the end of its block, without being a text that is shown. A text
is a run of two or more bytes in front of a zero. -/
def Dropped (bytes : List UInt8) (k : Nat) : Prop :=
  k + 1 = bytes.length ∨ runStop bytes k = bytes.length ∨
    (k < runStop bytes k / blockSize * blockSize ∧
      ¬ (bytes[runStop bytes k]? = some 0 ∧ runStart bytes k + 2 ≤ runStop bytes k ∧
        runStop bytes k / blockSize * blockSize + 1 < bytes.length))

instance (bytes : List UInt8) (k : Nat) : Decidable (Dropped bytes k) :=
  inferInstanceAs (Decidable (_ ∨ _ ∨ (_ ∧ ¬ (_ ∧ _ ∧ _))))

end Runs

/-! ## Parts of the bytes -/

/-- The bytes from a place on to another. -/
def between (bytes : List UInt8) (i k : Nat) : List UInt8 := (bytes.drop i).take (k - i)

section Between

variable {bytes : List UInt8} {i k stop : Nat}

theorem length_between (h : k ≤ bytes.length) : (between bytes i k).length = k - i := by
  rw [between, length_take, length_drop]
  omega

@[simp] theorem between_self (bytes : List UInt8) (k : Nat) :
    between bytes k k = [] := by simp [between]

theorem between_append (hi : i ≤ k) (hk : k ≤ stop) :
    between bytes i k ++ between bytes k stop = between bytes i stop := by
  have hsum : stop - i = (k - i) + (stop - k) := by omega
  have hplace : i + (k - i) = k := by omega
  rw [between, between, between, hsum, take_add, drop_drop, hplace]

theorem between_eq_cons (hk : k < stop) (hstop : stop ≤ bytes.length) :
    between bytes k stop = bytes[k] :: between bytes (k + 1) stop := by
  have hsize : stop - k = (stop - (k + 1)) + 1 := by omega
  rw [between, between, drop_eq_getElem_cons (by omega), hsize, take_succ_cons]

/-- The run at a place within a block ends in front of a byte of the block, or reaches the end of
the block. -/
theorem scan (hk : k ≤ stop) (hstop : stop ≤ bytes.length) :
    ∃ m, k ≤ m ∧ m ≤ stop ∧ Run bytes k m ∧
      (between bytes k stop).takeWhile printable = between bytes k m ∧
      (between bytes k stop).dropWhile printable = between bytes m stop ∧
        (m < stop → printableAt bytes m = false) := by
  -- Along the block from its end to the place.
  induction hsize : stop - k generalizing k with
  | zero =>
    obtain rfl : k = stop := by omega
    exact ⟨k, le_rfl, le_rfl, fun j hi hj => by omega, by simp, by simp,
      fun h => absurd h (lt_irrefl k)⟩
  | succ size ih =>
    have hlt : k < stop := by omega
    rw [between_eq_cons hlt hstop]
    cases hprint : printable bytes[k] with
    | false =>
      have hnot : ¬ printable bytes[k] = true := by simp [hprint]
      refine ⟨k, le_rfl, hlt.le, fun j hi hj => by omega, ?_, ?_, fun _ => ?_⟩
      · rw [takeWhile_cons_of_neg hnot, between_self]
      · rw [dropWhile_cons_of_neg hnot, between_eq_cons hlt hstop]
      · rw [printableAt_of_lt (by omega), hprint]
    | true =>
      obtain ⟨m, hle, hms, hrun, htake, hdrop, hend⟩ := ih (k := k + 1) (by omega) (by omega)
      refine ⟨m, by omega, hms, fun j hi hj => ?_, ?_, ?_, hend⟩
      · rcases Nat.eq_or_lt_of_le hi with rfl | hi
        · rw [printableAt_of_lt (by omega), hprint]
        · exact hrun j hi hj
      · rw [takeWhile_cons_of_pos hprint, htake, ← between_eq_cons (by omega) (hms.trans hstop)]
      · rw [dropWhile_cons_of_pos hprint, hdrop]

end Between

/-! ## Rows -/

/-- The address in front of a row. -/
def addr : TextRow → Int
  | text addr _ => addr
  | byte addr _ => addr

/-- The bytes that a row shows. -/
def content : TextRow → List UInt8
  | text _ bytes => bytes
  | byte _ b => [b]

/-- The address behind the bytes that a row shows. -/
def stop (row : TextRow) : Int := row.addr + row.content.length

/-- A row shows the byte at an address. -/
def Covers (row : TextRow) (x : Int) : Prop := row.addr ≤ x ∧ x < row.stop

/-- A row shows bytes that stand at its address. If it is a text, then these are two or more
printable bytes in front of a zero. -/
def Truthful (base : Int) (bytes : List UInt8) (row : TextRow) : Prop :=
  ∃ i m, row.addr = base + (i : Nat) ∧ i < m ∧ m ≤ bytes.length ∧ row.content = between bytes i m ∧
    ∀ x text, row = .text x text → i + 2 ≤ m ∧ Run bytes i m ∧ bytes[m]? = some 0

/-- Rows show just the bytes from a place on that are not dropped, each in one row, and in their
order. -/
structure Shows (base : Int) (bytes : List UInt8) (i : Nat) (rows : List TextRow) : Prop where
  truthful : ∀ row ∈ rows, row.Truthful base bytes
  above : ∀ row ∈ rows, base + i ≤ row.addr
  ordered : rows.Pairwise fun row later => row.stop ≤ later.addr
  covers : ∀ k, i ≤ k → k < bytes.length →
    ((∃ row ∈ rows, row.Covers (base + k)) ↔ ¬ Dropped bytes k)

section Rows

variable {base : Int} {bytes : List UInt8} {i k m : Nat} {rows : List TextRow}

/-- No more rows are needed if everything that is left is dropped. -/
theorem Shows.nil (h : ∀ k, i ≤ k → k < bytes.length → Dropped bytes k) :
    Shows base bytes i [] where
  truthful := by simp
  above := by simp
  ordered := .nil
  covers k hi hk := by simpa using h k hi hk

/-- A row may stand in front of others if it shows bytes that are not dropped and all in front of
them are. -/
theorem Shows.cons (h : Shows base bytes m rows) {row : TextRow} (haddr : row.addr = base + k)
    (hcontent : row.content = between bytes k m) (hi : i ≤ k) (hk : k < m) (hm : m ≤ bytes.length)
    (htext : ∀ x text, row = .text x text → k + 2 ≤ m ∧ Run bytes k m ∧ bytes[m]? = some 0)
    (hlost : ∀ j, i ≤ j → j < k → Dropped bytes j)
    (hshown : ∀ j, k ≤ j → j < m → ¬ Dropped bytes j) : Shows base bytes i (row :: rows) := by
  have hstop : row.stop = base + m := by
    rw [TextRow.stop, haddr, hcontent, length_between hm]
    omega
  refine ⟨?_, forall_mem_cons.mpr ⟨by omega, fun r hr => ?_⟩, ?_, fun j hi' hj => ?_⟩
  · exact forall_mem_cons.mpr ⟨⟨k, m, haddr, hk, hm, hcontent, htext⟩, h.truthful⟩
  · have := h.above r hr
    omega
  · refine pairwise_cons.mpr ⟨fun later hlater => ?_, h.ordered⟩
    have := h.above later hlater
    omega
  · -- The rows behind it cover nothing in front of where they begin.
    have hbelow : j < m → ¬ ∃ row ∈ rows, row.Covers (base + j) := by
      rintro hjm ⟨r, hr, hcovers, -⟩
      have := h.above r hr
      omega
    -- The row itself covers its own bytes.
    have hself : row.Covers (base + j) ↔ k ≤ j ∧ j < m := by
      rw [Covers, haddr, hstop]
      omega
    rw [exists_mem_cons_iff, hself]
    by_cases hjm : j < m
    · by_cases hkj : k ≤ j
      · exact iff_of_true (.inl ⟨hkj, hjm⟩) (hshown j hkj hjm)
      · refine iff_of_false ?_ (not_not.mpr (hlost j hi' (by omega)))
        rintro (hin | hin)
        · exact hkj hin.1
        · exact hbelow hjm hin
    · rw [← h.covers j (by omega) hj]
      exact ⟨fun hor => hor.resolve_left fun hin => hjm hin.2, .inr⟩

end Rows

/-! ## Blocks -/

/-- A block of the bytes: it has the full size, or is the last one. -/
structure Block (bytes : List UInt8) (start stop : Nat) : Prop where
  aligned : blockSize ∣ start
  lt : start < stop
  le : stop ≤ bytes.length
  size : stop = start + blockSize ∨ (stop = bytes.length ∧ stop ≤ start + blockSize)

theorem Block.stop_aligned {start stop : Nat} (h : Block bytes start stop) :
    blockSize ∣ stop ∨ stop = bytes.length := by
  rcases h.size with hsize | hsize
  · exact .inl (hsize ▸ Nat.dvd_add h.aligned (dvd_refl blockSize))
  · exact .inr hsize.1

/-- The dump stands at the place `k` of a block that ends at `stop`. The printable bytes from `i` on
to there are carried over from earlier blocks. Where nothing is carried, no run goes on, unless it
ends within the block. -/
structure Standing (base : Int) (bytes : List UInt8) (stop i k : Nat) (addr : Int) (carry : Carry) :
    Prop where
  addr_eq : addr = base + k
  carried : carry.bytes = between bytes i k
  carry_addr : i < k → carry.addr = base + i
  le : i ≤ k
  inside : k ≤ stop
  run : Run bytes i k
  aligned : i < k → blockSize ∣ k ∨ k = bytes.length
  begins : Begins bytes i ∨ (i = k ∧ runStop bytes k < stop)

/-- How a block ends well: what it shows is all, or the next block begins where it ends, with lines
enough, and can complete what it shows. -/
def BlockEnd.Leads (base : Int) (bytes : List UInt8) (stop i : Nat) (rows : List TextRow) :
    BlockEnd → Prop
  | .over => Shows base bytes i rows
  | .goesOn addr carry room =>
    ∃ j, Standing base bytes stop j stop addr carry ∧ bytes.length ≤ room + j ∧
      ∀ later, Shows base bytes j later → Shows base bytes i (rows ++ later)

theorem BlockEnd.Leads.cons {base : Int} {stop i j : Nat} {rows : List TextRow} {ending : BlockEnd}
    (h : ending.Leads base bytes stop j rows) {row : TextRow}
    (hrow : ∀ later, Shows base bytes j later → Shows base bytes i (row :: later)) :
    ending.Leads base bytes stop i (row :: rows) := by
  rcases ending with _ | ⟨addr, carry, room⟩
  · exact hrow rows h
  · obtain ⟨j', hstanding, hroom, hlater⟩ := h
    exact ⟨j', hstanding, hroom, fun later hshows => hrow _ (hlater later hshows)⟩

section Standing

variable {base : Int} {bytes : List UInt8} {start stop i k m : Nat} {addr : Int} {carry : Carry}

/-- The place where all of a run is shown as a text, or its part in this block as bytes. -/
theorem Standing.start_eq (h : Standing base bytes stop i k addr carry) (hk : k ≤ bytes.length) :
    (if carry.bytes = [] then addr else carry.addr) = base + i := by
  have hle := h.le
  have hempty : carry.bytes = [] ↔ i = k := by
    rw [h.carried, ← length_eq_zero_iff, length_between hk]
    omega
  by_cases hnone : carry.bytes = []
  · rw [if_pos hnone, h.addr_eq, hempty.mp hnone]
  · rw [if_neg hnone, h.carry_addr (lt_of_le_of_ne hle (mt hempty.mpr hnone))]

/-- Nothing is carried behind a byte that no run goes on at, or in front of the end of one in the
block. -/
theorem Standing.fresh (haddr : addr = base + k) (hk : k ≤ stop)
    (h : Begins bytes k ∨ runStop bytes k < stop) : Standing base bytes stop k k addr noCarry where
  addr_eq := haddr
  carried := by simp [noCarry]
  carry_addr hlt := absurd hlt (lt_irrefl k)
  le := le_rfl
  inside := hk
  run j hi hj := absurd hj (by omega)
  aligned hlt := absurd hlt (lt_irrefl k)
  begins := h.imp_right fun hstop => ⟨rfl, hstop⟩

/-- What is carried over from the end of a block is carried into the next one. -/
theorem Standing.enter (h : Standing base bytes k i k addr carry) (hk : k ≤ stop) :
    Standing base bytes stop i k addr carry :=
  { h with
    inside := hk
    begins := .inl (h.begins.resolve_right fun hend => absurd hend.2 (le_runStop bytes k).not_gt) }

/-- Where something is carried, the place is the beginning of the block. -/
theorem Standing.eq_start (h : Standing base bytes stop i k addr carry)
    (hblock : Block bytes start stop) (hle : start ≤ k) (hlt : k < stop) (hcarry : i < k) :
    k = start := by
  have hk := h.aligned hcarry
  have hstart := hblock.aligned
  have hstop := hblock.le
  have hsize := hblock.size
  unfold blockSize at *
  omega

/-- At the end of the section all that is left is dropped. -/
theorem Standing.dropped_of_end (h : Standing base bytes stop i k addr carry)
    (hle : k ≤ bytes.length) (hk : bytes.length ≤ k + 1) :
    ∀ j, i ≤ j → j < bytes.length → Dropped bytes j := by
  intro j hi hj
  by_cases hjk : j + 1 = bytes.length
  · exact .inl hjk
  · have haligned := h.aligned (by omega)
    have hrun : runStop bytes k = runStop bytes j :=
      Run.runStop_eq (fun l hl hlk => h.run l (by omega) hlk) (by omega)
    have hbelow := le_runStop bytes k
    have habove := runStop_le hle
    refine .inr ?_
    rw [← hrun]
    by_cases hend : runStop bytes k = bytes.length
    · exact .inl hend
    · -- The run ends in front of the last byte, where a block begins that is not looked at.
      obtain hstop : runStop bytes k = k := by omega
      rw [hstop, Nat.div_mul_cancel (haligned.resolve_right (by omega))]
      exact .inr ⟨by omega, fun htext => by omega⟩

end Standing

section Step

variable {last addr : Int} {fuel room : Nat} {carry : Carry} {b : UInt8} {rest : List UInt8}

theorem ofBlock_over (h : last ≤ addr) :
    ofBlock last (fuel + 1) (room + 1) addr carry (b :: rest) = ([], .over) := by
  rw [ofBlock, if_pos h]

theorem ofBlock_through (h : ¬ last ≤ addr) (hafter : (b :: rest).dropWhile printable = []) :
    ofBlock last (fuel + 1) (room + 1) addr carry (b :: rest) =
      ([], .goesOn (addr + ((b :: rest).takeWhile printable).length)
        ⟨if carry.bytes = [] then addr else carry.addr,
          carry.bytes ++ (b :: rest).takeWhile printable⟩ (room + 1)) := by
  rw [ofBlock, if_neg h, isPrintable_eq, hafter]

theorem ofBlock_text (h : ¬ last ≤ addr) (hafter : (b :: rest).dropWhile printable = 0 :: after)
    (htwo : 2 ≤ (carry.bytes ++ (b :: rest).takeWhile printable).length) :
    ofBlock last (fuel + 1) (room + 1) addr carry (b :: rest) =
      (.text (if carry.bytes = [] then addr else carry.addr)
        (carry.bytes ++ (b :: rest).takeWhile printable) ::
          (ofBlock last fuel room (addr + ((b :: rest).takeWhile printable).length) noCarry
            (0 :: after)).1,
        (ofBlock last fuel room (addr + ((b :: rest).takeWhile printable).length) noCarry
          (0 :: after)).2) := by
  rw [ofBlock, if_neg h, isPrintable_eq, hafter]
  dsimp only
  rw [if_pos (by simpa using htwo)]

theorem ofBlock_byte (h : ¬ last ≤ addr) {c : UInt8}
    (hafter : (b :: rest).dropWhile printable = c :: after)
    (hnot : ¬ (c = 0 ∧ 2 ≤ (carry.bytes ++ (b :: rest).takeWhile printable).length)) :
    ofBlock last (fuel + 1) (room + 1) addr carry (b :: rest) =
      (.byte addr b :: (ofBlock last fuel room (addr + 1) noCarry rest).1,
        (ofBlock last fuel room (addr + 1) noCarry rest).2) := by
  rw [ofBlock, if_neg h, isPrintable_eq, hafter]
  dsimp only
  rw [if_neg (by simpa using hnot)]

end Step

section Steps

variable {base last : Int} {bytes : List UInt8} {start stop i k m : Nat} {addr : Int}
  {carry : Carry}

/-- The run at a place ends in front of a byte that is not printable. -/
structure EndsAt (bytes : List UInt8) (k m : Nat) : Prop where
  le : k ≤ m
  run : Run bytes k m
  ends : printableAt bytes m = false

theorem EndsAt.runStop_eq (h : EndsAt bytes k m) {j : Nat} (hj : k ≤ j) (hm : j ≤ m) :
    runStop bytes j = m := by
  rw [← Run.runStop_eq (fun l hl hlm => h.run l (by omega) hlm) hm, runStop_of_not h.ends]

section

variable (h : Standing base bytes stop i k addr carry)
include h

/-- Of a run that ends within the block, what has been carried is dropped, unless the run is a
text. -/
theorem Standing.dropped_iff (hblock : Block bytes start stop) (hstart : start ≤ k)
    (hlast : k + 1 < bytes.length) (hends : EndsAt bytes k m) (hms : m < stop) :
    ∀ j, i ≤ j → j ≤ m → j + 1 < bytes.length →
      (Dropped bytes j ↔ j < k ∧ ¬ (bytes[m]? = some 0 ∧ i + 2 ≤ m)) := by
  intro j hi hj hnext
  have hle := h.le
  have hkm := hends.le
  have hstop : runStop bytes j = m :=
    EndsAt.runStop_eq ⟨hle.trans hkm, h.run.trans hends.run, hends.ends⟩ hi hj
  have hboundary : m / blockSize * blockSize = start := by
    have haligned := hblock.aligned
    have hsize := hblock.size
    unfold blockSize at *
    omega
  rw [Dropped, hstop, hboundary, or_iff_right (by omega),
    or_iff_right (by have := hblock.le; omega)]
  by_cases hcarry : i < k
  · -- The boundary is the place itself, and the run begins with what is carried.
    obtain rfl := h.eq_start hblock hstart (by omega) hcarry
    refine and_congr_right fun hjk => ?_
    have hbegins : Begins bytes i := h.begins.resolve_right fun hend => by omega
    rw [Run.runStart_eq (fun l hl hlj => h.run l hl (by omega)) hi,
      runStart_of_begins (by omega) hbegins]
    exact not_congr (and_congr_right fun _ => and_iff_left hlast)
  · exact iff_of_false (fun hdropped => by omega) fun hdropped => by omega

/-- A run that reaches the end of the block is carried on. -/
theorem Standing.carryOn (hblock : Block bytes start stop) (hrun : Run bytes k stop) :
    Standing base bytes stop i stop (addr + (stop - k : Nat)) ⟨base + i, between bytes i stop⟩ where
  addr_eq := by
    have hinside := h.inside
    rw [h.addr_eq]
    omega
  carried := rfl
  carry_addr _ := rfl
  le := h.le.trans h.inside
  inside := le_rfl
  run := h.run.trans hrun
  aligned _ := hblock.stop_aligned
  begins := by
    refine .inl (h.begins.resolve_right fun hends => ?_)
    have hthrough := le_runStop bytes stop
    rw [hrun.runStop_eq h.inside] at hthrough
    omega

/-- Behind a text the dump stands at the zero. -/
theorem Standing.passText (hends : EndsAt bytes k m) (hms : m < stop) :
    Standing base bytes stop m m (addr + (m - k : Nat)) noCarry := by
  have haddr := h.addr_eq
  have hkm := hends.le
  exact .fresh (by omega) hms.le (.inr (by rwa [hends.runStop_eq hkm le_rfl]))

/-- Behind a byte the dump stands at the next one, at which no run goes on that reaches the end of
the block. -/
theorem Standing.passByte (hends : EndsAt bytes k m) (hms : m < stop) :
    Standing base bytes stop (k + 1) (k + 1) (addr + 1) noCarry := by
  have haddr := h.addr_eq
  refine .fresh (by omega) (hends.le.trans_lt hms) ?_
  rcases Nat.eq_or_lt_of_le hends.le with rfl | hkm
  · exact .inl (.inr hends.ends)
  · exact .inr (by rwa [hends.runStop_eq k.le_succ hkm])

end

/-- What a block shows, from every place of it on. -/
theorem ofBlock_leads (hblock : Block bytes start stop) (hlast : last + 1 = base + bytes.length) :
    ∀ (fuel : Nat)
    {room i k : Nat} {addr : Int} {carry : Carry}, Standing base bytes stop i k addr carry →
    start ≤ k → stop - k + min (k - i) 1 ≤ fuel → bytes.length ≤ room + i →
    (ofBlock last fuel room addr carry (between bytes k stop)).2.Leads base bytes stop i
      (ofBlock last fuel room addr carry (between bytes k stop)).1 := by
  -- By the fuel: a step takes the place further, or else does away with what is carried.
  have hstop := hblock.le
  intro fuel
  induction fuel with
  | zero =>
    intro room i k addr carry h _ hfuel hroom
    obtain rfl : k = stop := by have := h.inside; omega
    rw [ofBlock]
    exact ⟨i, h, hroom, fun later hlater => hlater⟩
  | succ fuel ih =>
    intro room i k addr carry h hstart hfuel hroom
    have hle := h.le
    rcases Nat.eq_or_lt_of_le h.inside with rfl | hlt
    · -- The block is at its end.
      rw [between_self]
      cases room with
      | zero =>
        -- No lines are left, but then no bytes are either.
        rw [ofBlock]
        · exact Shows.nil fun j hi hj => absurd hj (by omega)
        · exact Nat.succ_ne_zero fuel
      | succ room =>
        rw [ofBlock]
        · exact ⟨i, h, hroom, fun later hlater => hlater⟩
        · exact Nat.succ_ne_zero fuel
        · exact Nat.succ_ne_zero room
    · obtain ⟨room, rfl⟩ : ∃ n, room = n + 1 := ⟨room - 1, by omega⟩
      have haddr := h.addr_eq
      rw [between_eq_cons hlt hstop]
      by_cases hover : last ≤ addr
      · rw [ofBlock_over hover]
        exact Shows.nil (h.dropped_of_end (by omega) (by omega))
      · obtain ⟨m, hkm, hms, hrun, htake, hdrop, hend⟩ := scan hlt.le hstop
        rw [between_eq_cons hlt hstop] at htake hdrop
        have hlength := length_between (i := k) (hms.trans hstop)
        have hbegin := h.start_eq (by omega)
        have hbytes : carry.bytes ++ between bytes k m = between bytes i m := by
          rw [h.carried, between_append hle hkm]
        rcases Nat.eq_or_lt_of_le hms with rfl | hms
        · rw [between_self] at hdrop
          rw [ofBlock_through hover hdrop, htake, hlength, hbegin, hbytes]
          exact ⟨i, h.carryOn hblock hrun, hroom, fun later hlater => hlater⟩
        · -- The run ends within the block, as a text or with a byte.
          have hends : EndsAt bytes k m := ⟨hkm, hrun, hend hms⟩
          have hdropped := h.dropped_iff hblock hstart (by omega) hends hms
          have hbyte : bytes[m]? = some bytes[m] := List.getElem?_eq_getElem (by omega)
          have hsize : (carry.bytes ++ between bytes k m).length = m - i := by
            rw [hbytes, length_between (by omega)]
          rw [between_eq_cons hms hstop] at hdrop
          by_cases htext : bytes[m] = 0 ∧ i + 2 ≤ m
          · obtain ⟨hzero, htwo⟩ := htext
            rw [hzero] at hdrop hbyte
            rw [ofBlock_text hover hdrop (by rw [htake, hsize]; omega), htake, hlength, hbegin,
              hbytes, ← hzero, ← between_eq_cons hms hstop]
            refine (ih (h.passText hends hms) (by omega) (by omega) (by omega)).cons
              fun later hlater => ?_
            refine hlater.cons rfl rfl le_rfl (by omega) (by omega)
              (fun _ _ _ => ⟨htwo, h.run.trans hrun, hbyte⟩)
              (fun j hi hj => by omega) fun j hi hj => ?_
            rw [hdropped j hi hj.le (by omega)]
            exact fun hlost => hlost.2 ⟨hbyte, htwo⟩
          · have hnot : ¬ (bytes[m] = 0 ∧ 2 ≤ m - i) := fun hboth => htext ⟨hboth.1, by omega⟩
            rw [ofBlock_byte hover hdrop (by rwa [htake, hsize])]
            refine (ih (h.passByte hends hms) (by omega) (by omega) (by omega)).cons
              fun later hlater => ?_
            refine hlater.cons haddr ?_ hle (by omega) (by omega) (fun _ _ hrow => by cases hrow)
              (fun j hi hj => ?_) fun j hi hj => ?_
            · rw [between_eq_cons (by omega) (by omega), between_self]
              rfl
            · rw [hdropped j hi (by omega) (by omega), hbyte, Option.some_inj]
              exact ⟨hj, htext⟩
            · rw [hdropped j (by omega) (by omega) (by omega)]
              exact fun hlost => by omega

end Steps

/-! ## Dumps -/

section Dumps

variable {base last addr : Int} {bytes : List UInt8} {p p' : Program} {carry : Carry}
  {blocks room : Nat} {block : List UInt8}

section

variable (hread : p.read addr blockSize = (block, p')) (hblock : block ≠ []) {rows : List TextRow}
include hread hblock

theorem ofProgram_over
    (hrows : ofBlock last (2 * block.length) (room + 1) addr carry block = (rows, .over)) :
    ofProgram last (blocks + 1) (room + 1) addr carry p = (rows, p') := by
  rw [ofProgram, hread]
  · dsimp only
    rw [if_neg hblock, hrows]
  · exact Nat.succ_ne_zero room

theorem ofProgram_goesOn {next : Int} {carry' : Carry} {room' : Nat}
    (hrows : ofBlock last (2 * block.length) (room + 1) addr carry block =
      (rows, .goesOn next carry' room')) :
    ofProgram last (blocks + 1) (room + 1) addr carry p =
      (rows ++ (ofProgram last blocks room' next carry' p').1,
        (ofProgram last blocks room' next carry' p').2) := by
  rw [ofProgram, hread]
  · dsimp only
    rw [if_neg hblock, hrows]
  · exact Nat.succ_ne_zero room

end

/-- Nothing is shown from the last address on. -/
theorem ofProgram_last (h : last ≤ addr) (blocks room : Nat) :
    (ofProgram last blocks room addr carry p).1 = [] ∧
      p.Recalls (ofProgram last blocks room addr carry p).2 := by
  cases blocks with
  | zero => exact ⟨by rw [ofProgram], by rw [ofProgram]; exact .refl p⟩
  | succ blocks =>
    cases room with
    | zero =>
      rw [ofProgram]
      · exact ⟨rfl, .refl p⟩
      · exact Nat.succ_ne_zero blocks
    | succ room =>
      have hrecalls := p.recalls_read addr blockSize
      rcases hread : p.read addr blockSize with ⟨block, p'⟩
      rw [hread] at hrecalls
      cases block with
      | nil =>
        rw [ofProgram, hread]
        · exact ⟨rfl, hrecalls⟩
        · exact Nat.succ_ne_zero room
      | cons b rest =>
        have hover : ofBlock last (2 * (b :: rest).length) (room + 1) addr carry (b :: rest) =
            ([], .over) := by
          rw [length_cons, Nat.mul_succ, ofBlock_over h]
        rw [ofProgram_over hread (cons_ne_nil b rest) hover]
        exact ⟨rfl, hrecalls⟩

/-- A dump that has lines enough shows just the bytes that are not dropped. -/
theorem ofProgram_shows (hlast : last + 1 = base + bytes.length)
    (hholds : p.image.Holds base bytes) : ∀ (blocks : Nat)
    {room i k : Nat} {addr : Int} {carry : Carry}, Standing base bytes k i k addr carry →
    (blockSize ∣ k ∨ k = bytes.length) → k ≤ bytes.length → bytes.length - k ≤ blocks →
    bytes.length ≤ room + i → Shows base bytes i (ofProgram last blocks room addr carry p).1 ∧
      p.Recalls (ofProgram last blocks room addr carry p).2 := by
  -- Every block takes the place further, so that there are always as many blocks as bytes left.
  intro blocks
  induction blocks with
  | zero =>
    intro room i k addr carry h _ hle hblocks _
    rw [ofProgram]
    exact ⟨Shows.nil (h.dropped_of_end hle (by omega)), .refl p⟩
  | succ blocks ih =>
    intro room i k addr carry h haligned hle hblocks hroom
    have haddr := h.addr_eq
    rcases Nat.eq_or_lt_of_le hle with rfl | hlt
    · obtain ⟨hnone, hrecalls⟩ := @ofProgram_last last addr p carry (by omega) (blocks + 1) room
      rw [hnone]
      exact ⟨Shows.nil (h.dropped_of_end le_rfl (by omega)), hrecalls⟩
    · obtain ⟨room, rfl⟩ : ∃ n, room = n + 1 := ⟨room - 1, by have := h.le; omega⟩
      obtain ⟨stop, hstop⟩ : ∃ stop, stop = min (k + blockSize) bytes.length := ⟨_, rfl⟩
      have hpos : 0 < blockSize := by decide
      have hblock : Block bytes k stop :=
        ⟨haligned.resolve_right hlt.ne, by omega, by omega, by omega⟩
      have hread : p.read addr blockSize = (between bytes k stop, p) := by
        have hne : bytes.drop k ≠ [] := by
          rw [ne_eq, drop_eq_nil_iff]
          omega
        have hsize : min blockSize (bytes.drop k).length = stop - k := by
          rw [length_drop]
          omega
        rw [haddr, Program.read_of_holds (hholds.drop k) hne, take_eq_take_min, hsize, between]
      have hlength : (between bytes k stop).length = stop - k := length_between hblock.le
      have hne : between bytes k stop ≠ [] := ne_nil_of_length_pos (by have := hblock.lt; omega)
      have hleads := ofBlock_leads hblock hlast (2 * (between bytes k stop).length)
        (h.enter hblock.lt.le) le_rfl (by have := hblock.lt; omega) hroom
      rcases hrows : ofBlock last (2 * (between bytes k stop).length)
        (room + 1) addr carry (between bytes k stop) with
        ⟨rows, _ | ⟨next, carry', room'⟩⟩
      · rw [ofProgram_over hread hne hrows]
        rw [hrows] at hleads
        exact ⟨hleads, .refl p⟩
      · rw [ofProgram_goesOn hread hne hrows]
        rw [hrows] at hleads
        obtain ⟨j, hstanding, hroom', hlater⟩ := hleads
        obtain ⟨hshows, hrecalls⟩ :=
          ih hstanding hblock.stop_aligned hblock.le (by have := hblock.lt; omega) hroom'
        exact ⟨hlater _ hshows, hrecalls⟩

end Dumps

end TextRow

/-! ## Lines -/

/-- The line of a row. -/
def Scene.textLine (s : Scene) (row : TextRow) : String :=
  (s.addressInk row.addr).paint s.options.color (Text.hex row.addr ++ ": ") ++
    match row with
    | .text _ bytes =>
      (Ink.role .string).paint s.options.color
        ("\"" ++ String.join (bytes.map fun b => Text.byteText b.toNat) ++ "\"") ++ ", 0\n"
    | .byte _ b => "0x" ++ Text.hexSigned 2 b.toNat ++ " " ++ "\n"

theorem Scene.writes_textRow (s : Scene) (row : TextRow) :
    (s.textRow row).Writes s.options.color (s.textLine row) := by
  have hnewline := Listing.writes_newline s.options.color
  cases row with
  | text addr bytes =>
    have hend := (Listing.writes_write s.options.color ", 0").bind (f := fun _ => Listing.newline)
      hnewline
    exact (s.writes_address s.options.color addr).bind
      ((Listing.writes_put s.options.color (.text (.role .string) _)).bind hend)
  | byte addr b =>
    have hend := (Listing.writes_write s.options.color ("0x" ++ Text.hexSigned 2 b.toNat ++
      " ")).bind (f := fun _ => Listing.newline) hnewline
    exact (s.writes_address s.options.color addr).bind hend

/-- A dump of texts that has a line for every byte succeeds. It writes the name and the extent of
its section, and then rows that are true, in the order of their addresses, and show every byte of
the section but those that are dropped. The last one is always among them. -/
theorem Act.dumpTexts_covers_iff {σ : Session} {p : Program} {bytes : List UInt8} {lines : Nat}
    (hp : σ.program = some p) (hrest : p.image.Rest σ.marks.entry bytes)
    (hlines : bytes.length ≤ lines) :
    ∃ (span : SectionSpan) (image : Image) (rows : List TextRow),
      (p.image.span σ.marks.entry).1 = some span ∧ span.last + 1 = σ.marks.entry + bytes.length ∧
        p.image.SameFile image ∧
      Act.dumpTexts lines σ = .ok () (({ σ with program := some { p with image } }.printed
        ((Listing.sectionLine span.name span.start span.last).render σ.options.color)).printed
        (String.join (rows.map (Act.sceneOf σ p).textLine))) ∧
      (∀ row ∈ rows, row.Truthful σ.marks.entry bytes) ∧
      rows.Pairwise (fun row later => row.stop ≤ later.addr) ∧
      (∀ k < bytes.length, (∃ row ∈ rows, row.Covers (σ.marks.entry + k)) ↔
      ¬ TextRow.Dropped bytes k) ∧ ¬ ∃ row ∈ rows, row.Covers span.last := by
  obtain ⟨span, image₁, hspan, hlast, hne, hholds, hsame⟩ := hrest.span
  have hpos : 0 < bytes.length := length_pos_iff.mpr hne
  have hstanding : TextRow.Standing σ.marks.entry bytes 0 0 0 σ.marks.entry TextRow.noCarry :=
    .fresh (by simp) le_rfl (.inl (.inl rfl))
  have hblocks : bytes.length - 0 ≤ (span.last - σ.marks.entry).toNat + 1 := by omega
  obtain ⟨hshows, image₂, hprogram, hrecalls⟩ :=
    TextRow.ofProgram_shows (p := { p with image := image₁ }) hlast hholds _
    hstanding (.inl (dvd_zero _)) (Nat.zero_le _) hblocks (show bytes.length ≤ lines +
      0 from hlines)
  refine ⟨span, image₂, _, by rw [hspan], hlast, hrecalls p.image hsame, ?_, hshows.truthful,
    hshows.ordered, fun k hk => hshows.covers k (Nat.zero_le k) hk, ?_⟩
  · exact dump_eq (fun span entry q => TextRow.ofProgram span.last ((span.last - entry).toNat + 1)
      lines entry TextRow.noCarry q)
      Scene.textRow hp (by rw [Program.span, hspan]) (Prod.ext rfl hprogram)
      fun row _ => (sceneOf σ { p with image := image₂ }).writes_textRow row
  · have hfinal : span.last = σ.marks.entry + (bytes.length - 1 : Nat) := by omega
    have hlost := hshows.covers (bytes.length - 1) (Nat.zero_le _) (by omega)
    rw [← hfinal] at hlost
    exact fun hcovers => hlost.mp hcovers (.inl (by omega))

/-- Of three letters that go over the end of the first block the first two are not shown, for no
zero follows, and neither is the last byte. -/
theorem Act.dumpTexts_covers_iff_boundary :
    let bytes : List UInt8 := List.replicate 126 1 ++ [0x41, 0x42, 0x43, 1, 1]
    let p : Program :=
      ⟨.elf (Elf.ofData bytes), ⟨.x86, .bits32, false⟩, ⟨none, []⟩, ∅, Symbols.empty⟩
    let σ := Session.viewing p.image 0x100
    σ.program = some p ∧ p.image.Rest σ.marks.entry bytes ∧ bytes.length ≤ 131 ∧
    ∃ (image : Image) (rows : List TextRow),
      Act.dumpTexts 131 σ = .ok () (({ σ with program := some { p with image } }.printed
        ".data                [ 0x100 - 0x182 - 130 ]\n").printed
          (String.join (rows.map (Act.sceneOf σ p).textLine))) ∧
      ∀ k : Nat, k < 131 → ((∃ row ∈ rows, row.Covers (0x100 + k)) ↔ k ∉ [126, 127, 130]) := by
  intro bytes p σ
  have hrest : p.image.Rest σ.marks.entry bytes := Elf.ofData_rest (by decide)
  have hdropped : ∀ k < 131, ¬ TextRow.Dropped bytes k ↔ k ∉ [126, 127, 130] := by decide +kernel
  obtain ⟨span, image, rows, hspan, -, -, hdump, -, -, hcovers, -⟩ :=
    @Act.dumpTexts_covers_iff σ p bytes 131 rfl hrest le_rfl
  have hhead : (p.image.span σ.marks.entry).1 = some ⟨".data", 0x100, 0x182⟩ := by decide +kernel
  obtain rfl := Option.some.inj (hhead.symm.trans hspan)
  exact ⟨rfl, hrest, le_rfl, image, rows, hdump, fun k hk => (hcovers k hk).trans (hdropped k hk)⟩

/-- Of five bytes the last one is not shown. Of a byte and four letters only the byte is. -/
theorem Act.dumpTexts_drops_last :
    (endState (Act.dumpTexts 9 (Session.viewing (.elf (Elf.ofData [1, 2, 3, 4, 5]))
      0x100))).console.out =
      ".data                [ 0x100 - 0x104 - 4 ]\n0x100: 0x01 \n0x101: 0x02 \n0x102: 0x03 \n0x103: 0x04 \n" ∧
    (endState (Act.dumpTexts 9 (Session.viewing (.elf (Elf.ofData [1, 0x41, 0x42, 0x43, 0x44]))
      0x100))).console.out = ".data                [ 0x100 - 0x104 - 4 ]\n0x100: 0x01 \n" := by
  decide +kernel

end Decompiler
