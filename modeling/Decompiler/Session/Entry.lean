import Decompiler.Session
import Decompiler.Text.Numeral
/-!
# Where to start

The user names a place by a symbol, by an address in hexadecimal or by `EP`, the entry point of the
file; the default is the main function. The place has to be in executable memory, or for data
anywhere in the image.
-/

namespace Decompiler

/-- The address of the first known symbol of a list. -/
def Symbols.firstOf? (s : Symbols) (names : List String) : Option Int :=
  (names.map fun n => s.byName.getD (some n) (-1)).find? (· ≠ -1)

/-- The address that a text names. Without a text it is the main function, or the start of a raw
image. -/
def Program.resolve (p : Program) (text : Option String) (raw : Bool) : Except Fault Int :=
  match text with
  | none =>
    if raw then .ok 0
    else
      match p.symbols.firstOf? ["main", "_main"] with
      | some addr => .ok addr
      | none => .error (.symbolNotFound "main")
  | some name =>
    if Text.startsWith name "0x" then
      match Text.hexadecimal? name with
      | some addr => .ok addr
      | none => .error (.badNumeral name)
    else
      match p.symbols.firstOf? [name] with
      | some addr => .ok addr
      | none => .error (.symbolNotFound name)

namespace Act

/-- Checks that an address may be listed: it has to be executable, unless data is asked for. -/
def checkAddress (addr : Int) : Act Unit := do
  let p ← program
  let ((exists_, executable), image) := p.image.checkAddr addr
  modify fun s => { s with program := some { p with image } }
  if !(← get).options.data && !executable then fail (.notExecutable addr)
  if !exists_ then fail (.notMapped addr)

/-- The address that the user named, if it can be told. -/
def namedAddress : Act Int := do
  let s ← get
  let p ← program
  match s.callsSection with
  | some sec => ask (p.image.sectionStart sec)
  | none =>
    if s.entryName = some "EP" then return p.image.entryPoint
    else
      let addr ← ask (p.resolve s.entryName (s.rawType ≠ none))
      if s.entryName = none then modify fun s => { s with entryName := some "main" }
      return addr

/-- Reports a place that cannot be used; other failures stay failures. -/
def reportPlaceFault (e : Stop) : Act Bool := do
  match e with
  | .fault (.sectionNotFound name) =>
    error ("section " ++ name ++ " not found")
    giveUp
  | .fault (.symbolNotFound name) =>
    error ("symbol " ++ name ++ " not found")
    if (← get).options.interactive then return false
    error "You can see all symbols with -s (if resolution is done)."
    error "Note: --dump need the option -x."
    die
  | .fault (.notExecutable addr) =>
    error ("the address 0x" ++ Text.hexSigned 1 addr ++ " is not in an executable section")
    giveUp
  | .fault (.notMapped addr) =>
    error ("the address 0x" ++ Text.hexSigned 1 addr ++ " cannot be found")
    giveUp
  | e => throw e

/-- Finds the place to start from; tells whether it can be used. -/
def findEntry : Act Bool :=
  tryCatch
    (do
      let addr ← namedAddress
      checkAddress addr
      mark fun m => { m with entry := addr }
      return true)
    reportPlaceFault

end Act

end Decompiler
