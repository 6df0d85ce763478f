import Decompiler.Image.Pe
import Decompiler.Proofs.OrdMap
/-!
# Symbols from their records

A symbol table is written record by record, each symbol with its auxiliary records behind it. Names
of up to eight bytes stand in the record, padded with zeros; of a longer one the record gives the
place in the string table behind all records. Reading a table that is written in this way gives back
the symbols, whatever the auxiliary records contain (`Coff.externals_table`), so that the symbols of
a PE file are the external ones of its table, and the last one counts where names or addresses are
the same (`Pe.addStatic_decodes`).
-/

namespace Decompiler

/-! ## Numbers and texts in bytes -/

/-- A number in a given number of bytes, least significant byte first. -/
def littleEndianBytes : (width : Nat) → Nat → List UInt8
  | 0, _ => []
  | width + 1, n => UInt8.ofNat n :: littleEndianBytes width (n / 256)

@[simp] theorem length_littleEndianBytes (width n : Nat) :
    (littleEndianBytes width n).length = width := by
  induction width generalizing n with
  | zero => rfl
  | succ width ih => rw [littleEndianBytes, List.length_cons, ih]

theorem littleEndian_littleEndianBytes {width n : Nat} (h : n < 256 ^ width) :
    littleEndian (littleEndianBytes width n) = n := by
  induction width generalizing n with
  | zero =>
    rw [pow_zero, Nat.lt_one_iff] at h
    rw [h]
    rfl
  | succ width ih =>
    have hrest : n / 256 < 256 ^ width := by
      rw [pow_succ] at h
      omega
    rw [littleEndianBytes, littleEndian, ih hrest, UInt8.toNat_ofNat']
    omega

/-- ASCII characters are encoded as themselves. -/
theorem utf8Encode_ascii {bytes : List UInt8} (h : ∀ b ∈ bytes, b.toNat < 128) :
    (bytes.map fun b => Char.ofNat b.toNat).flatMap String.utf8EncodeChar = bytes := by
  induction bytes with
  | nil => rfl
  | cons b rest ih =>
    obtain ⟨hb, hrest⟩ := List.forall_mem_cons.mp h
    have hchar : (Char.ofNat b.toNat).toNat = b.toNat := by
      rw [Char.ofNat, dif_pos (.inl (by omega))]
      rfl
    have hsize : (Char.ofNat b.toNat).utf8Size = 1 := by
      rw [Char.utf8Size_eq_one_iff, UInt32.le_iff_toNat_le]
      change (Char.ofNat b.toNat).toNat ≤ 127
      omega
    have hbyte : (Char.ofNat b.toNat).val.toUInt8 = b := by
      apply UInt8.toNat_inj.mp
      rw [UInt32.toNat_toUInt8]
      change (Char.ofNat b.toNat).toNat % 256 = b.toNat
      omega
    rw [List.map_cons, List.flatMap_cons, String.utf8EncodeChar_eq_singleton hsize, hbyte, ih hrest]
    rfl

theorem utf8?_ascii {bytes : List UInt8} (h : ∀ b ∈ bytes, b.toNat < 128) :
    utf8? bytes = some (String.ofList (bytes.map fun b => Char.ofNat b.toNat)) := by
  have hbytes : (⟨bytes.toArray⟩ : ByteArray) =
      (String.ofList (bytes.map fun b => Char.ofNat b.toNat)).toByteArray := by
    apply ByteArray.ext
    rw [String.toByteArray_ofList, List.utf8Encode, utf8Encode_ascii h, List.data_toByteArray]
  rw [utf8?, hbytes, String.fromUTF8?, dif_pos (String.isValidUTF8 _)]
  rfl

/-- A slice that begins at a place of a list. -/
theorem slice_at_start {α : Type} {l part : List α} {start : Nat} (h : part <+: l.drop start) :
    slice l start ((start + part.length : Nat) : Int) = part := by
  obtain ⟨rest, hrest⟩ := h
  have hlength := congrArg List.length hrest
  rw [List.length_append, List.length_drop] at hlength
  simp only [slice, sliceBound, Int.natCast_nonneg, if_true, Int.toNat_natCast]
  by_cases hstart : start ≤ l.length
  · rw [min_eq_left hstart, min_eq_left (by omega : start + part.length ≤ l.length), ← hrest,
      Nat.add_sub_cancel_left, List.take_left]
  · obtain rfl : part = [] := List.length_eq_zero_iff.mp (by omega)
    simp

namespace Coff

/-! ## Writing a table -/

/-- The name of a symbol in its bytes: ASCII characters, at least one. The zero ends a name and is
not part of it. -/
structure Name where
  bytes : List UInt8
  nonempty : bytes ≠ []
  ascii : ∀ b ∈ bytes, b ≠ 0 ∧ b.toNat < 128

/-- The name as a text. -/
def Name.text (n : Name) : String := String.ofList (n.bytes.map fun b => Char.ofNat b.toNat)

/-- A symbol with its auxiliary records, which may contain anything. -/
structure Symbol where
  name : Name
  /-- The place of the name in the string table, if the record has no room for it. -/
  place : UInt32
  value : UInt32
  sectionNumber : UInt16
  type : UInt16
  storageClass : UInt8
  auxiliaries : List (Vector UInt8 recordSize)
  countable : auxiliaries.length < 256

namespace Symbol

/-- Whether the record has room for the name. -/
def isShort (s : Symbol) : Bool := s.name.bytes.length ≤ 8

def isExternal (s : Symbol) : Bool := s.storageClass = 2

/-- The name, or its place in the string table behind four zeros. -/
def nameField (s : Symbol) : List UInt8 :=
  if s.isShort then s.name.bytes ++ List.replicate (8 - s.name.bytes.length) 0
  else List.replicate 4 0 ++ littleEndianBytes 4 s.place.toNat

/-- The record of a symbol. -/
def record (s : Symbol) : List UInt8 :=
  s.nameField ++ littleEndianBytes 4 s.value.toNat ++ littleEndianBytes 2 s.sectionNumber.toNat ++
    littleEndianBytes 2 s.type.toNat ++ [s.storageClass, UInt8.ofNat s.auxiliaries.length]

/-- A symbol as it stands in the table: its record and the auxiliary ones. -/
def bytes (s : Symbol) : List UInt8 := s.record ++ s.auxiliaries.flatMap Vector.toList

/-- The number of its records. -/
def recordCount (s : Symbol) : Nat := s.auxiliaries.length + 1

/-- The string table holds the name, with a zero behind it, if the record does not. -/
def NamedIn (s : Symbol) (strings : List UInt8) : Prop :=
  s.isShort = false → s.name.bytes ++ [0] <+: strings.drop s.place.toNat

instance (s : Symbol) (strings : List UInt8) : Decidable (s.NamedIn strings) :=
  inferInstanceAs (Decidable (_ = _ → _ <+: _))

end Symbol

/-- The records of all symbols. -/
def table (symbols : List Symbol) : List UInt8 := symbols.flatMap Symbol.bytes

/-- The number of records in a table, auxiliary ones included. -/
def recordCount (symbols : List Symbol) : Nat := (symbols.map Symbol.recordCount).sum

/-! ## Reading it -/

section Reading

variable {s : Symbol} {file : List UInt8} {offset strings : Nat}

@[simp] theorem Symbol.length_nameField (s : Symbol) : s.nameField.length = 8 := by
  unfold nameField
  split
  · rename_i hshort
    simp only [isShort, decide_eq_true_eq] at hshort
    rw [List.length_append, List.length_replicate]
    omega
  · simp

@[simp] theorem Symbol.length_record (s : Symbol) :
    s.record.length = recordSize := by simp [record, recordSize]

theorem Symbol.name_record (s : Symbol) : s.record.take 8 = s.nameField := by simp [record]

theorem Symbol.value_record (s : Symbol) :
    (s.record.drop 8).take 4 = littleEndianBytes 4 s.value.toNat := by
  simp [record]

theorem Symbol.end_record (s : Symbol) :
    s.record.drop 16 = [s.storageClass, UInt8.ofNat s.auxiliaries.length] :=
  List.drop_left' (by simp)

theorem Symbol.length_bytes (s : Symbol) : s.bytes.length = s.recordCount * recordSize := by
  have hconst : s.auxiliaries.map (fun a => a.toList.length) =
      List.replicate s.auxiliaries.length recordSize := by
    simp
  rw [bytes, List.length_append, length_record, List.length_flatMap, hconst, List.sum_replicate,
    recordCount, smul_eq_mul]
  ring

/-- The record of a symbol is read as it was written. -/
theorem record?_eq (h : s.record <+: file.drop offset) :
    record? file offset = some ⟨s.nameField, s.value.toNat, s.storageClass.toNat,
      s.auxiliaries.length⟩ := by
  have hlength := h.length_le
  rw [Symbol.length_record, List.length_drop] at hlength
  have hroom : ¬ (file.length : Int) < offset + recordSize := by
    have : 0 < recordSize := by decide
    omega
  have hslice := slice_at_start h
  rw [Symbol.length_record, Nat.cast_add] at hslice
  have hvalue : littleEndian (littleEndianBytes 4 s.value.toNat) = s.value.toNat :=
    littleEndian_littleEndianBytes s.value.toNat_lt
  have hcount : (UInt8.ofNat s.auxiliaries.length).toNat = s.auxiliaries.length := by
    rw [UInt8.toNat_ofNat']
    exact Nat.mod_eq_of_lt s.countable
  have hlast : s.record.drop 17 = [UInt8.ofNat s.auxiliaries.length] := by
    rw [← List.drop_drop (i := 1) (j := 16), s.end_record]
    rfl
  simp only [record?, if_neg hroom, hslice, s.name_record, s.value_record, s.end_record,
    hlast, hvalue]
  simp [littleEndian, hcount]

/-- A text is read up to the zero behind it. -/
theorem textUntilZero_eq {bytes text : List UInt8} (hzero : ∀ b ∈ text, b ≠ 0)
    (h : text ++ [0] <+: bytes) :
    textUntilZero bytes = .ok (text.map fun b => Char.ofNat b.toNat) := by
  obtain ⟨rest, rfl⟩ := h
  induction text with
  | nil => rfl
  | cons b text ih =>
    obtain ⟨hb, hzero⟩ := List.forall_mem_cons.mp hzero
    simp only [List.cons_append, textUntilZero, if_neg hb, ih hzero]
    rfl

/-- The name of a symbol is found in its record, or in the string table. -/
theorem Record.text_eq (r : Record) (hr : r.name = s.nameField)
    (hstrings : s.NamedIn (file.drop strings)) : r.text file strings = .ok s.name.text := by
  unfold Record.text
  rw [hr]
  cases hshort : s.isShort with
  | true =>
    -- The first byte of the name is no zero, and the zeros behind it are no part of it.
    have hfield : s.nameField = s.name.bytes ++ List.replicate (8 - s.name.bytes.length) 0 :=
      if_pos hshort
    have hfirst : littleEndian (s.nameField.take 4) ≠ 0 := by
      obtain ⟨b, rest, hbytes⟩ := List.exists_cons_of_ne_nil s.name.nonempty
      have hb : b.toNat ≠ 0 := by
        intro hzero
        exact (s.name.ascii b (by simp [hbytes])).1 (UInt8.toNat_inj.mp hzero)
      rw [hfield, hbytes, List.cons_append, List.take_succ_cons, littleEndian]
      omega
    have hname : s.nameField.takeWhile (· ≠ 0) = s.name.bytes := by
      rw [hfield, List.takeWhile_append_of_pos fun b hb => by simp [(s.name.ascii b hb).1]]
      cases 8 - s.name.bytes.length <;> simp [List.replicate_succ]
    rw [if_pos hfirst, hname, utf8?_ascii fun b hb => (s.name.ascii b hb).2]
    rfl
  | false =>
    have hfield : s.nameField = List.replicate 4 0 ++ littleEndianBytes 4 s.place.toNat :=
      if_neg (by simp [hshort])
    have hplace : littleEndian (littleEndianBytes 4 s.place.toNat) = s.place.toNat :=
      littleEndian_littleEndianBytes s.place.toNat_lt
    have hzeros : littleEndian (s.nameField.take 4) = 0 := by
      rw [hfield]
      rfl
    have hdrop : littleEndian (s.nameField.drop 4) = s.place.toNat := by
      rw [hfield]
      exact hplace
    have hnamed := hstrings hshort
    rw [List.drop_drop] at hnamed
    rw [if_neg (by simp [hzeros]), hdrop, ← Nat.cast_add, Int.toNat_natCast,
      textUntilZero_eq (fun b hb => (s.name.ascii b hb).1) hnamed]
    rfl

theorem Symbol.NamedIn.append {strings : List UInt8} (h : s.NamedIn strings) (after : List UInt8) :
    s.NamedIn (strings ++ after) :=
  fun hlong => (h hlong).trans ((List.prefix_append strings after).drop s.place.toNat)

theorem length_table (symbols : List Symbol) :
    (table symbols).length = recordCount symbols * recordSize := by
  induction symbols with
  | nil => rfl
  | cons s symbols ih =>
    rw [table, List.flatMap_cons, List.length_append, s.length_bytes, ← table, ih, recordCount,
      recordCount, List.map_cons, List.sum_cons, add_mul]

theorem length_le_recordCount (symbols : List Symbol) : symbols.length ≤ recordCount symbols := by
  induction symbols with
  | nil => exact le_rfl
  | cons s symbols ih =>
    rw [recordCount, List.map_cons, List.sum_cons, ← recordCount, List.length_cons,
      Symbol.recordCount]
    omega

/-- One step of reading: a symbol, and then what is behind its auxiliary records. -/
theorem externals_succ (hrecord : s.record <+: file.drop offset)
    (hname : s.NamedIn (file.drop strings)) (fuel count : Nat) :
    externals file strings (fuel + 1) offset (s.recordCount + count : Nat) =
      if s.isExternal then
        (externals file strings fuel (offset + s.bytes.length : Nat) count).map
          ((s.name.text, s.value.toNat) :: ·)
      else externals file strings fuel (offset + s.bytes.length : Nat) count := by
  have hsome : ¬ ((s.recordCount + count : Nat) : Int) ≤ 0 := by
    rw [Symbol.recordCount]
    omega
  have hoffset : (offset : Int) + (s.auxiliaries.length + 1) * recordSize =
      (offset + s.bytes.length : Nat) := by
    rw [s.length_bytes, Symbol.recordCount]
    push_cast
    rfl
  have hcount : ((s.recordCount + count : Nat) : Int) - (s.auxiliaries.length + 1) = count := by
    rw [Symbol.recordCount]
    omega
  have hclass : s.storageClass.toNat = 2 ↔ s.isExternal = true := by
    rw [Symbol.isExternal, decide_eq_true_eq]
    exact UInt8.toNat_inj (b := 2)
  rw [externals, if_neg hsome, record?_eq hrecord]
  simp only [hoffset, hcount]
  by_cases hexternal : s.isExternal = true
  · rw [if_pos (hclass.mpr hexternal), if_pos hexternal, Record.text_eq _ rfl hname]
    cases externals file strings fuel (offset + s.bytes.length : Nat) count <;> rfl
  · rw [if_neg (mt hclass.mp hexternal), if_neg hexternal]

/-- Reading a table gives the external symbols in it, in their order. -/
theorem externals_table :
    ∀ (symbols : List Symbol) (offset fuel : Nat), table symbols <+: file.drop offset →
    (∀ s ∈ symbols, s.NamedIn (file.drop strings)) → symbols.length ≤ fuel →
    externals file strings fuel offset (recordCount symbols) =
      .ok ((symbols.filter Symbol.isExternal).map fun s => (s.name.text, s.value.toNat)) := by
  intro symbols
  induction symbols with
  | nil =>
    intro offset fuel _ _ _
    cases fuel <;> rfl
  | cons s symbols ih =>
    intro offset fuel htable hnamed hfuel
    obtain ⟨hname, hnamed⟩ := List.forall_mem_cons.mp hnamed
    obtain ⟨fuel, rfl⟩ : ∃ k, fuel = k + 1 :=
      ⟨fuel - 1, (Nat.sub_add_cancel (Nat.zero_lt_of_lt hfuel)).symm⟩
    rw [List.length_cons, Nat.add_le_add_iff_right] at hfuel
    have hrecord : s.record <+: file.drop offset := by
      have hfirst : s.record <+: table (s :: symbols) := by simp [table, Symbol.bytes]
      exact hfirst.trans htable
    have hrest : table symbols <+: file.drop (offset + s.bytes.length) := by
      have hdrop := htable.drop s.bytes.length
      rwa [List.drop_drop, table, List.flatMap_cons, List.drop_left] at hdrop
    have hcount : recordCount (s :: symbols) = s.recordCount + recordCount symbols := by
      simp [recordCount]
    rw [hcount, externals_succ hrecord hname, ih _ fuel hrest hnamed hfuel, List.filter_cons]
    split <;> rfl

end Reading

end Coff

/-! ## The symbols of a file -/

namespace Symbols

theorem get?_byName_define (s : Symbols) (name name' : SymbolName) (addr : Int) :
    (s.define name addr).byName.get? name' = if name = name' then some addr
      else s.byName.get? name' :=
  OrdMap.get?_insert s.byName name name' addr

theorem get?_byAddr_define (s : Symbols) (name : SymbolName) (addr addr' : Int) :
    (s.define name addr).byAddr.get? addr' = if addr = addr' then some name
      else s.byAddr.get? addr' :=
  OrdMap.get?_insert s.byAddr addr addr' name

/-- All definitions of a list, one after another. -/
def ofDefinitions (defs : List (SymbolName × Int)) : Symbols :=
  defs.foldl (fun acc d => acc.define d.1 d.2) empty

theorem ofDefinitions_concat (defs : List (SymbolName × Int)) (d : SymbolName × Int) :
    ofDefinitions (defs ++ [d]) = (ofDefinitions defs).define d.1 d.2 := by
  rw [ofDefinitions, List.foldl_append]
  rfl

/-- The last definition of a name counts. -/
theorem get?_byName_ofDefinitions (defs : List (SymbolName × Int)) (name : SymbolName) :
    (ofDefinitions defs).byName.get? name = (defs.reverse.find? (·.1 = name)).map Prod.snd := by
  induction defs using List.reverseRecOn with
  | nil => rfl
  | append_singleton defs d ih =>
    rw [ofDefinitions_concat, get?_byName_define, ih, List.reverse_concat, List.find?_cons]
    by_cases hd : d.1 = name <;> simp [hd]

/-- The last definition of an address counts. -/
theorem get?_byAddr_ofDefinitions (defs : List (SymbolName × Int)) (addr : Int) :
    (ofDefinitions defs).byAddr.get? addr = (defs.reverse.find? (·.2 = addr)).map Prod.fst := by
  induction defs using List.reverseRecOn with
  | nil => rfl
  | append_singleton defs d ih =>
    rw [ofDefinitions_concat, get?_byAddr_define, ih, List.reverse_concat, List.find?_cons]
    by_cases hd : d.2 = addr <;> simp [hd]

end Symbols

namespace Pe

/-- A file has a symbol table: it begins at the place that the header gives, the header counts all
its records, and the string table is behind it. -/
structure HasTable (p : Pe) (symbols : List Coff.Symbol) : Prop where
  laidOut : ∃ before strings after, p.file = before ++ Coff.table symbols ++ strings ++ after ∧
    p.symbolOffset = before.length ∧ ∀ s ∈ symbols, s.NamedIn strings
  counted : p.symbolCount = Coff.recordCount symbols

/-- The address of a symbol: values count from the first page after the base. -/
def symbolAddr (p : Pe) (s : Coff.Symbol) : Int := s.value.toNat + p.base + p.alignment

/-- The definitions that the external symbols of a table amount to. -/
def definitions (p : Pe) (symbols : List Coff.Symbol) : List (SymbolName × Int) :=
  (symbols.filter Coff.Symbol.isExternal).map fun s => (some s.name.text, p.symbolAddr s)

/-- The symbols of the table are read in full, and defined in their order. -/
theorem addStatic_eq {p : Pe} {symbols : List Coff.Symbol} (h : p.HasTable symbols) :
    p.addStatic Symbols.empty = .ok (Symbols.ofDefinitions (p.definitions symbols)) := by
  obtain ⟨⟨before, strings, after, hfile, hoffset, hnamed⟩, hcount⟩ := h
  have hstrings : p.symbolOffset + Coff.recordSize * p.symbolCount =
      (before ++ Coff.table symbols).length := by
    rw [hoffset, hcount, List.length_append, Coff.length_table]
    push_cast
    ring
  have htable : Coff.table symbols <+: p.file.drop before.length := by simp [hfile]
  have hnamed' : ∀ s ∈ symbols, s.NamedIn (p.file.drop (before ++ Coff.table symbols).length) := by
    intro s hs
    rw [hfile, List.append_assoc, List.drop_left]
    exact (hnamed s hs).append after
  have hread := Coff.externals_table symbols before.length (Coff.recordCount symbols) htable hnamed'
    (Coff.length_le_recordCount symbols)
  simp only [addStatic, hstrings]
  rw [hoffset, hcount, Int.toNat_natCast, hread]
  change Except.ok _ = Except.ok _
  rw [Symbols.ofDefinitions, definitions, List.foldl_map, List.foldl_map]
  simp only [symbolAddr, add_assoc]

/-- For every table of symbols in a PE file, whatever is in the auxiliary records and wherever the
string table has the long names: the symbols are read, and they are just the external ones. A name
leads to the address of the last one of them with this name, and an address to the name of the last
one of them at this address. -/
theorem addStatic_decodes (p : Pe) (symbols : List Coff.Symbol) (h : p.HasTable symbols) :
    ∃ found, p.addStatic Symbols.empty = .ok found ∧
      (∀ name, found.byName.get? name =
        (symbols.reverse.find? fun s => s.isExternal ∧ some s.name.text = name).map fun s =>
      p.symbolAddr s) ∧ (∀ addr, found.byAddr.get? addr =
        (symbols.reverse.find? fun s => s.isExternal ∧ p.symbolAddr s = addr).map fun s =>
          some s.name.text) := by
  refine ⟨_, addStatic_eq h, fun name => ?_, fun addr => ?_⟩
  · rw [Symbols.get?_byName_ofDefinitions, definitions, ← List.map_reverse, ← List.filter_reverse,
      List.find?_map, List.find?_filter]
    simp only [Option.map_map, Function.comp_def, decide_eq_true_eq]
  · rw [Symbols.get?_byAddr_ofDefinitions, definitions, ← List.map_reverse, ← List.filter_reverse,
      List.find?_map, List.find?_filter]
    simp only [Option.map_map, Function.comp_def, decide_eq_true_eq]

/-- A table of three external symbols and one that is not. The first has an auxiliary record that
looks like a symbol, the second a long name, and the last one has the name of the first. -/
def fourSymbols : List Coff.Symbol :=
  [{ name := ⟨[0x6d, 0x61, 0x69, 0x6e], by simp, by simp⟩, place := 0, value := 0x10,
     sectionNumber := 1, type := 0x20, storageClass := 2,
     auxiliaries := [#v[0x61, 0, 0, 0, 0, 0, 0, 0, 0x99, 0, 0, 0, 1, 0, 0, 0, 2, 0]],
     countable := by decide },
   { name := ⟨[0x5f, 0x5f, 0x5f, 0x6d, 0x61, 0x69, 0x6e, 0x5f, 0x5f], by simp, by simp⟩, place := 4,
     value := 0x20, sectionNumber := 1, type := 0x20, storageClass := 2, auxiliaries := [],
     countable := by decide },
   { name := ⟨[0x2e, 0x74, 0x65, 0x78, 0x74], by simp, by simp⟩, place := 0, value := 0,
     sectionNumber := 1, type := 0, storageClass := 3, auxiliaries := [], countable := by decide },
   { name := ⟨[0x6d, 0x61, 0x69, 0x6e], by simp, by simp⟩, place := 0, value := 0x20,
     sectionNumber := 1, type := 0x20, storageClass := 2, auxiliaries := [],
     countable := by decide }]

/-- The long name, behind the length of the string table. -/
def longName : List UInt8 := [14, 0, 0, 0, 0x5f, 0x5f, 0x5f, 0x6d, 0x61, 0x69, 0x6e, 0x5f, 0x5f, 0]

/-- A file with this table behind its first two bytes. -/
def fourSymbolFile : Pe where
  machine := 0x14c
  magic := 0x10b
  base := 0x400000
  alignment := 0x1000
  entry := 0
  symbolOffset := 2
  symbolCount := 5
  sections := []
  imports := .missing
  file := [0x4d, 0x5a] ++ Coff.table fourSymbols ++ longName ++ [0x21]
  seen := []

/-- Both names lead to the address of the last symbol, which shows its name. -/
theorem addStatic_decodes_four :
    fourSymbolFile.HasTable fourSymbols ∧ ∃ found,
      fourSymbolFile.addStatic Symbols.empty = .ok found ∧
      found.byName.get? (some "main") = some 0x401020 ∧
      found.byName.get? (some "___main__") = some 0x401020 ∧
      found.byName.get? (some ".text") = none ∧ found.byAddr.get? 0x401020 = some (some "main") ∧
      found.byAddr.get? 0x401010 = some (some "main") := by
  have htable : fourSymbolFile.HasTable fourSymbols :=
    ⟨⟨[0x4d, 0x5a], longName, [0x21], rfl, rfl, by decide⟩, rfl⟩
  obtain ⟨found, hfound, hname, haddr⟩ := addStatic_decodes fourSymbolFile fourSymbols htable
  refine ⟨htable, found, hfound, ?_, ?_, ?_, ?_, ?_⟩
  · rw [hname]; rfl
  · rw [hname]; rfl
  · rw [hname]; rfl
  · rw [haddr]; rfl
  · rw [haddr]; rfl

end Pe

end Decompiler
