import Decompiler.Session.Data
import Decompiler.Session.Load
import Decompiler.Shell.Completion
/-!
# Running command lines

A command line is split into words; the first one names the command. A command that fails in a
foreseen way says so and returns to the prompt.
-/

namespace Decompiler.Shell

open Act

/-- Runs an act on a loaded file. -/
def whenLoaded (a : Act Unit) : Act Unit := do
  if (← get).program.isSome then a else error "load a file before"

/-- Loads a file in place of the one before. -/
def loadAs (change : Session → Session) (args : List String) : Act Unit :=
  match args with
  | [name] => do
    modify fun s => { change s.unload with fileName := some name }
    let _ ← load name
  | _ => error "filename required"

/-- After a command that worked at a place: the place is forgotten. -/
def forgetPlace : Act Unit :=
  modify fun s => { s with entryName := none, marks := { s.marks with entry := 0 } }

/-- Takes the place and the number of lines from the arguments. -/
def placeAndLines (args : List String) : Act Int := do
  let standard := (← get).options.lines
  let lines ← match args with
    | [_, count] =>
      match Text.decimal? count with
      | some n => pure n
      | none => fail (.badNumeral count)
    | _ => pure standard
  modify fun s => { s with entryName := args.head? }
  return lines

/-- Shows code at a place. -/
def runDump (args : List String) : Act Unit := whenLoaded do
  let lines ← placeAndLines args
  if ← findEntry then
    dumpCode lines
    forgetPlace

/-- Accepts addresses of data, or no longer. -/
def acceptData (b : Bool) : Act Unit :=
  modify fun s => { s with options := { s.options with data := b } }

/-- Shows data at a place. -/
def runData (form : DataForm) (args : List String) : Act Unit := whenLoaded do
  let lines ← placeAndLines args
  acceptData true
  if ← findEntry then
    match form with
    | .texts => dumpTexts lines
    | .words width => dumpWords lines width
    forgetPlace
    acceptData false

/-- Shows the calls in a section. -/
def runCalls (args : List String) : Act Unit :=
  match args with
  | [name] => whenLoaded do
    modify fun s => { s with callsSection := some name }
    if ← findEntry then
      listCalls
      forgetPlace
    modify fun s => { s with callsSection := none }
  | _ => error "section required"

/-- Decompiles the function at a place. -/
def runDecompile (args : List String) : Act Unit := whenLoaded do
  modify fun s => { s with entryName := args.head? }.clearMarks
  if ← findEntry then
    let _ ← Act.decompile
    forgetPlace

/-- Gives an address a name. A name that is known moves there, and the address that it had loses its
symbol. -/
def defineSymbol (name addr : String) : Act Unit := do
  let p ← program
  let known := p.symbols.byName.get? (some name)
  match Text.hexadecimal? addr, known with
  | some n, none =>
    modify fun s => { s with program := some { p with symbols := p.symbols.define (some name) n } }
  | some n, some old =>
    if p.symbols.isNamed old then
      let symbols := { p.symbols with byAddr := p.symbols.byAddr.erase old }
      modify fun s => { s with program := some { p with symbols := symbols.define (some name) n } }
    else error "there was an error when creating a symbol"
  | none, _ => error "there was an error when creating a symbol"

/-- Lists the symbols, all or those that contain a text, or defines one. -/
def runSymbols (args : List String) : Act Unit := whenLoaded do
  let withSection := (← get).options.sectionNames
  match args with
  | [] => listSymbols withSection none
  | first :: others =>
    match first.toList.head? with
    | none => fail .emptyWord
    | some c =>
      if c = '|' then
        match others with
        | [pattern] => listSymbols withSection (some pattern)
        | _ => error "bad arguments (warn: need spaces between |)"
      else
        match others with
        | [] => error "an address is required to save the symbol"
        | [addr] =>
          if Text.startsWith addr "0x" then defineSymbol first addr
          else error "the address should starts with 0x"
        | _ => error "bad arguments"

/-- Shows the commands. -/
def runHelp : Act Unit := do
  let color := (← get).options.color
  let entry (c : Command) : String :=
    (Ink.number 2).paint color c.name ++ " " ++ "\n      ".intercalate c.help ++ "\n"
  print (String.join ((commands.filter (·.listed)).map entry))

def runSections : Act Unit := whenLoaded do
  print (Text.padRight 20 "NAME" ++ " [ START - END - SIZE ]\n")
  listSections

/-- The name of a target. -/
def targetName (t : Target) : String :=
  match t.arch, t.word with
  | .x86, .bits64 => "x64"
  | .x86, _ => "x86"
  | .arm, _ => "arm"
  | .mips, .bits64 => "mips64 (octeon)"
  | .mips, _ => "mips"

/-- The size of a file in kibibytes. -/
def sizeText (bytes : Nat) : String := Text.fixedRatio 2 bytes 1024

/-- Shows what is known of the loaded file. -/
def runInfo : Act Unit := do
  let s ← get
  match s.fileName with
  | none => printLine "no file loaded"
  | some name =>
    printLine ("File: " ++ name)
    match ← ask (s.files.resolve name) with
    | (_, .directory) => printLine ("Size: " ++ sizeText 4096 ++ " ko")
    | (_, .file f) => printLine ("Size: " ++ sizeText f.bytes.length ++ " ko")
    print "Type: "
    let p ← program
    printLine p.image.format
    print "Arch: "
    printLine (targetName p.target)
    printLine ("Endianess: " ++ (if p.target.bigEndian then "big" else "little") ++ " endian")

/-- Tells how an option has been switched. -/
def sayNow (on : Bool) : Act Unit := printLine (if on then "now it's on" else "now it's off")

/-- Switches the names of sections on or off. -/
def toggleSections : Act Unit := do
  let on := !(← get).options.sectionNames
  sayNow on
  modify fun s => { s with options := { s.options with sectionNames := on } }

/-- Switches comments on or off. -/
def toggleComments : Act Unit := do
  let on := !(← get).options.comments
  sayNow on
  modify fun s => { s with options := { s.options with comments := on } }

/-- Does what a command says, given its arguments. -/
def act (args : List String) : Action → Act Unit
  | .help => runHelp
  | .load => loadAs id args
  | .loadRaw type little =>
    loadAs
      (fun s => { s with rawType := some type, rawBigEndian := if little then false
      else s.rawBigEndian }) args
  | .decompile => runDecompile args
  | .data form => runData form args
  | .dump => runDump args
  | .nothing => pure ()
  | .symbols => runSymbols args
  | .calls => runCalls args
  | .leave => throw (.exit 0)
  | .sections => runSections
  | .info => runInfo
  | .toggleSections => toggleSections
  | .toggleComments => toggleComments

/-- Runs a command line. -/
def run (line : String) : Act Unit := do
  match Text.words? line with
  | none => fail .badQuoting
  | some [] => fail .emptyWord
  | some (name :: args) =>
    match command? name with
    | none => error "unknown command"
    | some c =>
      if c.maxArgs < args.length then
        error (name ++ " takes max " ++ toString c.maxArgs ++ " args")
      else act args c.action

/-! ## At the prompt -/

/-- Carries out the effect of a key on the terminal. -/
def settle (e : Effect) : Act Editor := do
  print (String.ofList e.output)
  match e.fault with
  | some f => fail f
  | none => return e.editor

/-- Handles a key: what it asks for is done before its last effect. `row` is where the cursor is. -/
def press (row : Int) (editor : Editor) (input : String) : Act Editor := do
  let key ← ask (Key.ofInput input)
  let effect := editor.press row key
  let editor ← settle effect
  match effect.request with
  | .nothing => return editor
  | .run line =>
    run (String.ofList line)
    settle (editor.afterRun row)
  | .complete start =>
    let found ← complete start
    settle (editor.afterCompletion found row)
  | .interrupt => settle editor.afterInterrupt

/-- Handles keys until the one that ends the session, or until there are no more. -/
def pressAll (row : Int) (editor : Editor) : List String → Act Editor
  | [] => return editor
  | key :: more => do
    if key = Key.ending then return editor
    pressAll row (← press row editor key) more

/-- The file that keeps the history. -/
def historyFile : String := ".reverse_history"

/-- Opens the shell: the file and the place that the user named come first, then the history is
read. -/
def begin (row : Int) : Act Editor := do
  let s ← get
  modify fun s => { s with forEditor := false }
  match s.fileName with
  | some name => loadAs id [name]
  | none => pure ()
  match s.entryName with
  | some name => runDecompile [name]
  | none => pure ()
  let history := match (← get).files.contents? historyFile with
    | some f => (utf8? f.bytes).elim [] Editor.historyOf
    | none => []
  print (String.ofList Editor.promptText)
  return { Editor.start row with history, raw := true }

/-- Closes the shell and keeps the history. -/
def close (editor : Editor) : Act Unit := do
  print "\n"
  writeFile historyFile (Editor.historyText editor.history)

/-- A whole session at the prompt. -/
def session (row : Int) (keys : List String) : Act Unit := do
  let editor ← begin row
  close (← pressAll row editor keys)

end Decompiler.Shell
