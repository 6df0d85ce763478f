import Decompiler.Image
/-!
# Programs under analysis

A program is an image together with a decoder for its code, the code decoded so far, and the symbols
known. Code is decoded on demand, a run of instructions at a time, and what has been decoded is
kept.
-/

namespace Decompiler

/-- A decoder of machine code: the instruction that starts at each address, for one family of
machines. -/
structure Decoder where
  arch : Option Arch
  table : List Insn
  deriving DecidableEq, Repr

namespace Decoder

/-- The instruction that starts at an address. -/
def insnAt? (d : Decoder) (addr : Int) : Option Insn := d.table.find? (·.addr = addr)

/-- Decodes one instruction after another from an address on, at most `fuel` of them, as long as
each fits in the `room` bytes that are left. -/
def run (d : Decoder) : (fuel : Nat) → (addr room : Int) → List Insn
  | 0, _, _ => []
  | fuel + 1, addr, room =>
    match d.insnAt? addr with
    | none => []
    | some i => if i.size ≤ room then i :: run d fuel i.next (room - i.size) else []

end Decoder

/-- A program under analysis. -/
structure Program where
  image : Image
  target : Target
  decoder : Decoder
  /-- The code decoded so far, by address, in the order of decoding. -/
  code : OrdMap Int Insn
  symbols : Symbols
  deriving DecidableEq, Repr

/-- An operation on a program that may decode more of it. What was decoded is kept if the operation
fails. -/
abbrev Decoding := EStateM Fault Program

namespace Program

def arch (p : Program) : Arch := p.target.arch

/-- How many bytes, and at most how many further instructions, are decoded at a time. -/
def batch : Nat := 1024

/-- Stores instructions up to the first that is known already. -/
def storeNew (code : OrdMap Int Insn) : List Insn → OrdMap Int Insn
  | [] => code
  | i :: rest => if code.contains i.addr then code else storeNew (code.insert i.addr i) rest

/-- The section of an address. -/
def span (p : Program) (addr : Int) : Option SectionSpan × Program :=
  let (s?, image) := p.image.span addr
  (s?, { p with image })

/-- Up to `size` bytes from an address on. -/
def read (p : Program) (addr size : Int) : List UInt8 × Program :=
  let (bytes, image) := p.image.read addr size
  (bytes, { p with image })

/-- The instruction at an address, decoded if it is not yet known. With `within`, only in the
section that starts there. -/
def insnAt (p : Program) (addr : Int) (within : Option Int) : Option Insn × Program :=
  let (s?, p) := p.span addr
  match s? with
  | none => (none, p)
  | some s =>
    if within.any (· ≠ s.start) then (none, p)
    else
      match p.code.get? addr with
      | some i => (some i, p)
      | none =>
        let (bytes, p) := p.read addr batch
        if p.decoder.arch ≠ some p.arch then (none, p)
        else
          match p.decoder.run (batch + 1) addr bytes.length with
          | [] => (none, p)
          | first :: rest =>
            (some first, { p with code := storeNew (p.code.insert first.addr first) rest })

/-- The instruction at an address, as an operation. -/
def fetch (addr : Int) (within : Option Int) : Decoding (Option Insn) := fun p =>
  let (i?, p) := p.insnAt addr within
  .ok i? p

/-- The instruction at an address that a jump leads to. -/
def fetchTarget (addr : Int) : Decoding Insn := do
  match ← fetch addr none with
  | some i => return i
  | none => throw .undecodable

/-- A question about an instruction, as an operation. -/
def ask {α : Type} (answer : Except Fault α) : Decoding α :=
  match answer with
  | .ok a => pure a
  | .error e => throw e

/-! ## Calls into other modules

Compilers call an imported function through a stub that jumps to the address kept in the import's
slot. A call of such a stub shows the import's name, with a mark that it goes through a jump. -/

/-- The import that a memory reference without registers reads, with the place that is to be
named. -/
def nameStub (place : Int) (ref : MemRef) : Decoding Bool := do
  let p ← get
  match p.image with
  | .pe pe =>
    if ref.base = none && ref.segment = none && ref.index = none then
      match pe.importAt? ref.disp with
      | some (some name) =>
        set { p with symbols := p.symbols.define (some ("jmp_" ++ name)) place }
        return true
      | some none => throw .unnamedText
      | none => return false
    else return false
  | _ => return false

/-- Names the stub that one known instruction calls or is. -/
def nameStubAt (i : Insn) : Decoding Bool := do
  let p ← get
  let called : Option Operand ←
    if p.arch.isCall i then do
      let op ← ask (i.operand 0)
      pure (if op.isImmediate then some op else none)
    else pure none
  match called with
  | some op => do
    match ← fetch op.number none with
    | none => throw .undecodable
    | some stub =>
      if ← ask (p.arch.isUncondJump stub) then
        let slot ← ask (stub.operand 0)
        if slot.isMemory then nameStub op.number slot.mem else return false
      else return false
  | none =>
    if (← ask (p.arch.isUncondJump i)) && p.symbols.isNamed i.addr then
      let slot ← ask (i.operand 0)
      nameStub i.addr slot.mem
    else return false

/-- Names the stubs that a list of instructions call or are; gives the number of names. -/
def nameStubsOf : List Insn → Decoding Nat
  | [] => pure 0
  | i :: rest => do
    let named ← nameStubAt i
    let count ← nameStubsOf rest
    return (if named then 1 else 0) + count

/-- Names all stubs that the code decoded so far uses. -/
def nameStubs : Decoding Nat := do
  nameStubsOf (← get).code.values

end Program

end Decompiler
