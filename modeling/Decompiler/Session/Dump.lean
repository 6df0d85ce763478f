import Decompiler.Session.Decompile
import Decompiler.Text.Case
/-!
# Listings of code, calls, symbols and sections
-/

namespace Decompiler

/-- Writes the name and the extent of a section. -/
def Listing.sectionLine (name : String) (start stop : Int) : Listing Unit := do
  ink .sectionName (Text.padRight 20 name)
  write (" [ " ++ Text.hex start ++ " - " ++ Text.hex stop ++ " - " ++
    toString (stop - start) ++ " ]")
  newline

/-- Writes the symbol of an address, in a list of symbols. -/
def Scene.symbolEntry (s : Scene) (withSection : Bool) (addr : Int) (name : String) :
    Listing Unit := do
  s.address addr 0 true
  Listing.write (" " ++ name)
  match s.program.image.sectionOf? addr with
  | some (sec, _) =>
    if withSection then
      Listing.write " ("
      Listing.ink .sectionName sec
      Listing.write ")"
  | none => pure ()
  Listing.newline

/-- Writes the symbols whose names contain a text; upper and lower case are the same. Symbols
without a name are left out, and cannot be searched for. -/
def Scene.symbolList (s : Scene) (withSection : Bool) (pattern : Option String) : Listing Unit :=
  Listing.each
    (fun e =>
      match e.2, pattern with
      | none, some _ => .fail .unnamedSymbol
      | none, none => .done ()
      | some name, _ =>
        let found := pattern.all fun p => Text.occursIn (Text.lower p) (Text.lower name)
        Listing.only (found && name ≠ "") (s.symbolEntry withSection e.1 name))
    s.program.symbols.byAddr.entries

namespace Act

/-- The section of an address, which has to be in one. -/
def sectionAt (addr : Int) : Act SectionSpan := do
  let p ← program
  let (span?, p) := p.span addr
  modify fun s => { s with program := some p }
  match span? with
  | some span => return span
  | none => fail (.noSection addr)

/-- Writes the head of a listing of the section at the entry. -/
def sectionHead : Act SectionSpan := do
  let span ← sectionAt (← get).marks.entry
  list (.sectionLine span.name span.start span.last)
  return span

/-- Goes over the code of a section from an address on, at most `count` steps, and does something at
every instruction and at every byte that is none. -/
def sweep (visit : Int → Option Insn → Act Unit) (span : SectionSpan) :
    (count : Nat) → (addr : Int) → Act Unit
  | 0, _ => pure ()
  | count + 1, addr =>
    if addr < span.last then do
      let i? ← decode (Program.fetch addr (some span.start))
      visit addr i?
      sweep visit span count (match i? with
        | some i => addr + i.size
        | none => addr + 1)
    else pure ()

/-- Gives the target of a jump a colour. -/
def tintJump (_ : Int) (i? : Option Insn) : Act Unit := do
  match i? with
  | none => pure ()
  | some i =>
    if ← ask ((← program).arch.isJump i) then
      let op ← ask (i.operand (-1))
      if op.isImmediate then mark (·.tint op.number)

/-- Writes an instruction of a dump. -/
def dumpInsn (addr : Int) (i? : Option Insn) : Act Unit :=
  match i? with
  | some i => listScene fun s => s.insn i 0
  | none => listScene fun s => s.undecoded (addr + 1) 0

/-- Writes the code from the entry on as assembly, at most a number of lines. -/
def dumpCode (lines : Int) : Act Unit := do
  let span ← sectionHead
  let entry := (← get).marks.entry
  sweep tintJump span lines.toNat entry
  nameStubs
  sweep dumpInsn span lines.toNat entry

/-- Writes an instruction if it is a call. -/
def listCall (_ : Int) (i? : Option Insn) : Act Unit := do
  match i? with
  | some i => if (← program).arch.isCall i then listScene fun s => s.insn i 0
  | none => pure ()

/-- Writes the calls in the section at the entry. -/
def listCalls : Act Unit := do
  let span ← sectionHead
  sweep listCall span (span.last - span.start).toNat span.start

/-- Writes the symbols. -/
def listSymbols (withSection : Bool) (pattern : Option String) : Act Unit :=
  listScene fun s => s.symbolList withSection pattern

/-- Writes the sections. -/
def listSections : Act Unit := do
  list (Listing.each (fun e => .sectionLine e.1 e.2.1 e.2.2) (← program).image.sections)

end Act

end Decompiler
