import Decompiler.Scene
import Decompiler.Text.Fixed
/-!
# Operands

The forms of operands that all architectures share. Writing an operand tells whether it looks
different from the assembly text, in which case that is shown too; operands of unknown kinds are not
written and tell nothing.
-/

namespace Decompiler.Scene

open Listing

/-- The four bytes of a number, least first; a number that is too large has none. -/
def wordBytes (n : Int) : Except Fault (List Nat) :=
  if 0 ≤ n && n < 0x100000000 then
    .ok ((List.range 4).map fun k => (n.toNat >>> (8 * k)) % 256)
  else .error (.wordRange n)

/-- Writes a number in decimal, and the text that its bytes spell, if they all are printable. -/
def decimal (n : Int) : Listing Bool := do
  write (toString n)
  if 0 < n then
    let codes ← ask (wordBytes n)
    if codes.all Text.isPrintable then
      ink .string " \""
      ink .string (String.ofList (codes.map Char.ofNat))
      ink .string "\""
      return false
  return true

/-- Writes a number that is an address in a section. -/
def location (s : Scene) (n : Int) (sec : String) (isData : Bool) : Listing Bool := do
  if s.options.sectionNames then
    write "("
    ink .sectionName sec
    write ") "
  let named ← do
    match s.program.symbols.byAddr.get? n with
    | some name =>
      s.symbol name
      write " "
      pure true
    | none => pure false
  let labelled ← s.label n 0 false
  only labelled (write " ")
  let shown := named || labelled
  only (!shown) (write (Text.hex n))
  if isData then
    let text ← ask (s.program.image.stringAt n s.options.textLimit)
    if text ≠ "\"\"" then
      write " "
      ink .string text
  return shown

/-- Writes an immediate number: an address with what is known of it, a character, or a plain
number. -/
def immediate (s : Scene) (n : Int) (inHex asCharacter : Bool) : Listing Bool :=
  match s.program.image.sectionOf? n with
  | some (sec, isData) => s.location n sec isData
  | none =>
    if asCharacter then do
      match Text.codeText? n with
      | some c =>
        ink .string ("'" ++ c ++ "'")
        return false
      | none => fail (.byteRange n)
    else if inHex then do
      write (Text.hex n)
      return false
    else decimal n

/-- Writes the displacement of a memory reference; `after` tells whether something stands before
it. -/
def displacement (s : Scene) (disp : Int) (after : Bool) : Listing Unit :=
  if disp = 0 then done ()
  else if (s.program.image.sectionOf? disp).isSome then do
    only after (write " + ")
    match s.program.symbols.byAddr.get? disp with
    | some name => s.symbol name
    | none => write (Text.hex disp)
  else if after then do
    write (if disp < 0 then " - " else " + ")
    write (toString disp.natAbs)
  else done ()

/-- Writes an index register with its scale. -/
def index (name : String) (scale : Int) : Listing Unit :=
  write (if scale = 1 then name else "(" ++ name ++ "*" ++ toString scale ++ ")")

/-- Writes all operands of an instruction, given how one is written. The result tells whether any of
them looks different; an operand of unknown kind can only stand alone. -/
def operandList (operand : Nat → Listing (Option Bool)) :
    (k count : Nat) → Option Bool → Listing (Option Bool)
  | _, 0, told => done told
  | k, count + 1, told => do
    write ", "
    match told, ← operand k with
    | some a, some b => operandList operand (k + 1) count (some (a || b))
    | _, _ => fail .unprintableOperand

/-- Writes an instruction in assembly form, with its operands in the style of pseudo code. -/
def plainInsn (i : Insn) (operand : Nat → Listing (Option Bool)) : Listing Bool := do
  write (i.mnemonic ++ " ")
  match i.operands with
  | [] => return false
  | _ :: rest =>
    let first ← operand 0
    let told ← operandList operand 1 rest.length first
    return told.getD false

end Decompiler.Scene
