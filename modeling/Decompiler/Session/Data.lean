import Decompiler.Session.Dump
/-!
# Dumps of data

Data is shown as words of a fixed width, or as the texts and single bytes that it consists of. It is
read block by block up to the end of its section.
-/

namespace Decompiler

/-! ## Words -/

/-- A line of a dump of words: a word, or a byte of a last block that is not a whole number of
words. -/
inductive WordRow where
  | word (addr : Int) (bytes : List UInt8)
  | tail (addr : Int) (byte : UInt8)
  deriving DecidableEq, Repr

namespace WordRow

/-- How many words are read at a time. -/
def blockWords : Int := 64

/-- The lines of a block, at most `room` of them, up to the address `last`. `block` is the whole
block and `rest` what is left of it. The flag tells whether the dump goes on after it. -/
def ofBlock (width : Int) (last : Int) (block : List UInt8) :
    (room : Nat) → (addr : Int) → (rest : List UInt8) → List WordRow × Bool
  | 0, _, _ => ([], false)
  | _, _, [] => ([], true)
  | room + 1, addr, rest =>
    if last ≤ addr then ([], false)
    else if (rest.take width.toNat).length ≠ width then (block.map (.tail addr), false)
    else
      let (rows, more) := ofBlock width last block room (addr + width) (rest.drop width.toNat)
      (.word addr (rest.take width.toNat) :: rows, more)

/-- The lines of a dump from an address on, at most `room` of them. Every block but the last gives
at least one, so that `room` also bounds the number of blocks. -/
def ofProgram (width : Int) (last : Int) : (blocks : Nat) → (room : Nat) → (addr : Int) → Program →
    List WordRow × Program
  | 0, _, _, p => ([], p)
  | _, 0, _, p => ([], p)
  | blocks + 1, room, addr, p =>
    let (block, p) := p.read addr (width * blockWords)
    if block = [] then ([], p)
    else
      let (rows, more) := ofBlock width last block room addr block
      if more then
        let (later, p) := ofProgram width last blocks (room - rows.length) (addr + block.length) p
        (rows ++ later, p)
      else (rows, p)

end WordRow

/-- Sections that no word is taken to point into. -/
def unaddressed : List String := [".comment", ".shstrtab"]

/-- Writes the symbol of a number that has one. -/
def Scene.symbolOf (s : Scene) (addr : Int) : Listing Unit :=
  match s.program.symbols.byAddr.get? addr with
  | some name => s.symbol name
  | none => .done ()

/-- Writes a line of a dump of words. -/
def Scene.wordRow (s : Scene) (row : WordRow) : Listing Unit := do
  match row with
  | .tail addr byte =>
    s.address addr 0 true
    Listing.write ("0x" ++ Text.hexSigned 2 byte.toNat)
    Listing.newline
  | .word addr bytes =>
    if s.program.symbols.isNamed addr then
      s.symbolOf addr
      Listing.newline
    s.address addr 0 true
    if bytes.length ∉ [1, 2, 4, 8] then Listing.fail (.wordWidth bytes.length)
    let value : Int := wordValue s.program.target.bigEndian bytes
    Listing.write ("0x" ++ Text.hexSigned 2 value)
    match s.program.image.sectionOf? value with
    | some (sec, _) =>
      if sec ∉ unaddressed then
        Listing.write " ("
        Listing.ink .sectionName sec
        Listing.write ")"
        if 4 ≤ bytes.length && s.program.symbols.isNamed value then
          Listing.write " "
          s.symbolOf value
    | none => pure ()
    Listing.newline

/-! ## Texts -/

/-- A line of a dump of texts: a text that ends in a zero, or a byte. -/
inductive TextRow where
  | text (addr : Int) (bytes : List UInt8)
  | byte (addr : Int) (byte : UInt8)
  deriving DecidableEq, Repr

namespace TextRow

/-- How many bytes are read at a time. -/
def blockSize : Nat := 128

/-- Printable bytes at the end of a block, with their address, that may go on in the next block. -/
structure Carry where
  addr : Int
  bytes : List UInt8
  deriving DecidableEq, Repr

/-- How a block ends: the dump is over, or goes on at an address with what is carried over. -/
inductive BlockEnd where
  | over
  | goesOn (addr : Int) (carry : Carry) (room : Nat)
  deriving DecidableEq, Repr

/-- Nothing is carried over. -/
def noCarry : Carry := ⟨0, []⟩

/-- The lines of a block, at most `room` of them, up to the address `last`. A run of two or more
printable bytes in front of a zero is a text; otherwise one byte is shown and the next run is looked
for. -/
def ofBlock (last : Int) :
    (fuel : Nat) → (room : Nat) → (addr : Int) → Carry → List UInt8 → List TextRow × BlockEnd
  | 0, room, addr, carry, _ => ([], .goesOn addr carry room)
  | _, 0, _, _, _ => ([], .over)
  | _, room, addr, carry, [] => ([], .goesOn addr carry room)
  | fuel + 1, room + 1, addr, carry, b :: rest =>
    if last ≤ addr then ([], .over)
    else
      let run := (b :: rest).takeWhile fun c => Text.isPrintable c.toNat
      let after := (b :: rest).dropWhile fun c => Text.isPrintable c.toNat
      let start := if carry.bytes = [] then addr else carry.addr
      let bytes := carry.bytes ++ run
      match after with
      | [] => ([], .goesOn (addr + run.length) ⟨start, bytes⟩ (room + 1))
      | c :: _ =>
        if c = 0 && 2 ≤ bytes.length then
          let (rows, ending) := ofBlock last fuel room (addr + run.length) noCarry after
          (.text start bytes :: rows, ending)
        else
          let (rows, ending) := ofBlock last fuel room (addr + 1) noCarry rest
          (.byte addr b :: rows, ending)

/-- The lines of a dump from an address on, at most `room` of them. -/
def ofProgram (last : Int) : (blocks : Nat) → (room : Nat) → (addr : Int) → Carry → Program →
    List TextRow × Program
  | 0, _, _, _, p => ([], p)
  | _, 0, _, _, p => ([], p)
  | blocks + 1, room, addr, carry, p =>
    let (block, p) := p.read addr blockSize
    if block = [] then ([], p)
    else
      match ofBlock last (2 * block.length) room addr carry block with
      | (rows, .over) => (rows, p)
      | (rows, .goesOn addr carry room) =>
        let (later, p) := ofProgram last blocks room addr carry p
        (rows ++ later, p)

end TextRow

/-- Writes a line of a dump of texts. -/
def Scene.textRow (s : Scene) (row : TextRow) : Listing Unit := do
  match row with
  | .text addr bytes =>
    s.address addr 0 true
    Listing.ink .string ("\"" ++ String.join (bytes.map fun b => Text.byteText b.toNat) ++ "\"")
    Listing.write ", 0"
    Listing.newline
  | .byte addr b =>
    s.address addr 0 true
    Listing.write ("0x" ++ Text.hexSigned 2 b.toNat ++ " ")
    Listing.newline

namespace Act

/-- Keeps what a look-up in the program has changed. -/
def keepProgram (p : Program) : Act Unit := modify fun s => { s with program := some p }

/-- Writes the data from the entry on as words. -/
def dumpWords (lines width : Int) : Act Unit := do
  let span ← sectionHead
  let entry := (← get).marks.entry
  let (rows, p) := WordRow.ofProgram width span.last lines.toNat lines.toNat entry (← program)
  keepProgram p
  listScene fun s => Listing.each s.wordRow rows

/-- Writes the data from the entry on as texts and bytes. -/
def dumpTexts (lines : Int) : Act Unit := do
  let span ← sectionHead
  let entry := (← get).marks.entry
  let (rows, p) :=
    TextRow.ofProgram span.last ((span.last - entry).toNat + 1) lines.toNat entry TextRow.noCarry
      (← program)
  keepProgram p
  listScene fun s => Listing.each s.textRow rows

end Act

end Decompiler
