import Decompiler.Session
import Decompiler.Text.Numeral
/-!
# Loading files

Reads a file into the session, with the symbols that it lists and those that the user adds. A file
that cannot be loaded is reported.
-/

namespace Decompiler.Act

/-- Adds the symbol on a line: an address in hexadecimal and a name. -/
def addSymbolLine (line : String) : Act Unit := do
  match Text.fields line with
  | [] => fail .emptyWord
  | addr :: rest =>
    match Text.hexadecimal? addr, rest with
    | none, _ => fail (.badNumeral addr)
    | some _, [] => fail .outOfRange
    | some n, name :: _ =>
      decode (modify fun p => { p with symbols := p.symbols.define (some name) n })

/-- Adds the symbols on some lines. -/
def addSymbolLines : List String → Act Unit
  | [] => pure ()
  | line :: rest => do
    addSymbolLine line
    addSymbolLines rest

/-- Adds the symbols in a file of text. -/
def addSymbolFile (bytes : List UInt8) : Act Unit :=
  match utf8? bytes with
  | some text => addSymbolLines (Text.lines text)
  | none => fail .badEncoding

/-- Makes a program of a file. -/
def readProgram (f : FileContents) : Act Program := do
  let s ← get
  let image ← ask (f.image s.rawType s.rawBase s.rawBigEndian)
  if s.rawType = none then trace ("Binary loaded in " ++ elapsed)
  match ← ask image.target with
  | none => fail (.unsupportedArch (← ask image.machineName))
  | some target =>
    let symbols ← ask image.symbols
    trace ("Found " ++ toString symbols.byName.size ++ " symbols in " ++ elapsed)
    return { image, target, decoder := f.decoder, code := ∅, symbols }

/-- Reports a failure to load that is the file's; other failures stay failures. -/
def reportLoadFault (e : Stop) : Act Bool := do
  match e with
  | .fault (.unsupportedArch name) =>
    error ("arch " ++ name ++ " is not supported")
    giveUp
  | .fault .fileFormat =>
    error "the file is not PE or ELF binary"
    giveUp
  | .fault (.importFailure text) =>
    error text
    error "It seems that pefile.parse_data_directories is bugged."
    error "Maybe you should Retry"
    giveUp
  | e => throw e

/-- Loads the file of the session; tells whether it is loaded. -/
def load (name : String) : Act Bool := do
  match (← get).files.lookup name with
  | none =>
    error ("file " ++ name ++ " doesn't exists")
    giveUp
  | some .directory =>
    error "this is not a file"
    giveUp
  | some (.file f) =>
    let read : Act (Option Program) := tryCatch (some <$> readProgram f) fun e => do
      let _ ← reportLoadFault e
      return none
    match ← read with
    | none => return false
    | some p =>
      modify fun s => { s with program := some p }
      match (← get).symbolFile with
      | some bytes =>
        modify fun s => { s with symbolFile := none }
        addSymbolFile bytes
      | none => pure ()
      return true

end Decompiler.Act
