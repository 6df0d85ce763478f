import Decompiler.Idiom.Syscall
import Decompiler.Listing
import Decompiler.Marks
import Decompiler.Options
import Decompiler.Program
/-!
# What is known when a listing is written

A scene is what the writers look at: the program, the marks of the analysis, the notes on addresses
and the user's options. Here are the parts that all architectures share: addresses and their labels,
symbols, bytes.
-/

namespace Decompiler

/-- All that a listing is written from. -/
structure Scene where
  options : Options
  marks : Marks
  notes : Syscall.Notes
  program : Program

namespace Scene

open Listing

/-- The ink of an address: its own colour if it has one. -/
def addressInk (s : Scene) (addr : Int) : Ink :=
  match s.marks.tints.get? addr with
  | some n => .number n
  | none => .role .address

/-- Writes an address. -/
def address (s : Scene) (addr : Int) (depth : Int) (colon : Bool) : Listing Unit := do
  indent depth
  put (.address (s.addressInk addr) addr colon)

/-- Writes the label of an address, if it has one; tells whether it has. -/
def label (s : Scene) (addr : Int) (depth : Int) (colon : Bool) : Listing Bool := do
  match s.marks.labels.get? addr with
  | none => return false
  | some name =>
    indent depth
    put (.label (s.addressInk addr) addr name colon)
    return true

/-- Writes the label of an address, or the address if it has none. -/
def labelOrAddress (s : Scene) (addr : Int) (depth : Int) (colon : Bool) : Listing Unit := do
  if ← s.label addr depth colon then return
  s.address addr depth colon

/-- Writes the label of an address on a line of its own, if it has one, and then the address. -/
def labelAndAddress (s : Scene) (addr : Int) (depth : Int) (colon : Bool) : Listing Unit := do
  if ← s.label addr depth colon then
    newline
    indent depth
    put (.address (.role .address) addr colon)
  else s.address addr depth colon

/-- The name of a symbol as text. -/
def nameText (name : SymbolName) : String := name.getD "None"

/-- Writes the symbol of an address that has one. A symbol without a name cannot be coloured. -/
def symbol (s : Scene) (name : SymbolName) : Listing Unit :=
  match name with
  | some text => ink .symbol text
  | none => if s.options.color then fail .unnamedText else write (nameText none)

/-- The symbol of an address, or the address itself. -/
def nameOrHex (s : Scene) (addr : Int) : String :=
  match s.program.symbols.byAddr.get? addr with
  | some name => nameText name
  | none => Text.hex addr

/-- Whether the symbol of an address is shown above its instruction: that of the entry already
stands in the title. -/
def showsSymbol (s : Scene) (addr : Int) : Bool :=
  (s.options.dump || addr ≠ s.marks.entry) && s.program.symbols.isNamed addr

/-- Writes the symbol above an instruction. -/
def symbolLine (s : Scene) (addr depth : Int) : Listing Unit := do
  if s.showsSymbol addr then
    indent depth
    match s.program.symbols.byAddr.get? addr with
    | some name => s.symbol name
    | none => return
    newline

/-- Writes the bytes of an instruction. -/
def bytes (s : Scene) (i : Insn) : Listing Unit :=
  only s.options.bytes
    (each (fun b => ink .comment (Text.zeroPad 2 (Text.hexDigits b.toNat) ++ " ")) i.bytes)

/-- Writes the bytes of an instruction that is shown as a comment. -/
def remarkBytes (s : Scene) (i : Insn) : Listing Unit :=
  only (s.options.bytes && s.options.comments)
    (each (fun b => ink .comment (Text.hexDigits b.toNat ++ " ")) i.bytes)

/-- Writes an instruction as a comment at the end of a line, if its pseudo code differs from it. -/
def assemblyComment (s : Scene) (i : Insn) (differs : Bool) : Listing Unit :=
  only (differs && s.options.comments) (ink .comment (" # " ++ i.text))

/-- Writes an address where nothing could be decoded. -/
def undecoded (s : Scene) (addr depth : Int) : Listing Unit := do
  s.address addr depth true
  write "(bad)"
  newline

/-- Writes a line of comment. -/
def commentLine (text : String) (depth : Int) : Listing Unit := do
  indent depth
  ink .comment text
  newline

/-- Writes the target of a jump. -/
def target (s : Scene) (addr : Int) : Listing Unit :=
  if s.marks.tints.contains addr then s.labelOrAddress addr 0 false
  else put (.address .plain addr false)

end Scene

end Decompiler
