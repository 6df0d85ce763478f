import Decompiler.Shell.Run
/-!
# The command line

Arguments are options and the name of a file. A long option may be shortened as long as no other
option begins in the same way; its value may follow it or be joined to it by an equals sign. Short
options of one letter may be joined, and their value may follow directly. After two dashes nothing
is an option, and two dashes joined to an option are no value: the option counts as given, but what
needs its value fails.
-/

namespace Decompiler.CommandLine

/-- What is chosen on the command line. -/
inductive Setting where
  | noColor
  | graph
  | noComments
  | noFurtherConditions
  | textLimit
  | entry
  | forEditor
  | symbols
  | calls
  | sections
  | dump
  | lines
  | bytes
  | interactive
  | symbolFile
  | debug
  | noSectionNames
  | raw
  | rawBase
  | rawBigEndian
  | help
  deriving DecidableEq, Repr

/-- The spellings of the options. -/
def spellings : List (String × Setting) :=
  [("-h", .help), ("--help", .help), ("-nc", .noColor), ("--nocolor", .noColor), ("-g", .graph),
   ("--graph", .graph), ("--nocomment", .noComments), ("--noandif", .noFurtherConditions),
   ("--datasize", .textLimit), ("-x", .entry), ("--entry", .entry), ("--vim", .forEditor),
     ("-s", .symbols),
   ("--symbols", .symbols), ("-c", .calls), ("--calls", .calls), ("--sections", .sections),
     ("--dump", .dump),
   ("-l", .lines), ("--lines", .lines), ("--bytes", .bytes), ("-i", .interactive),
   ("--interactive", .interactive), ("--symfile", .symbolFile), ("-d", .debug),
     ("--opt_debug", .debug),
   ("-ns", .noSectionNames), ("--nosectionsname", .noSectionNames), ("--raw", .raw),
     ("--rawbase", .rawBase),
   ("--rawbe", .rawBigEndian)]

def Setting.takesValue : Setting → Bool
  | textLimit | entry | calls | lines | symbolFile | raw | rawBase => true
  | _ => false

/-- What an argument is. -/
inductive Argument where
  /-- Two dashes. -/
  | divider
  | plain (text : String)
  | option (s : Setting)
  /-- A long option and a value after an equals sign. -/
  | assigned (s : Setting) (value : String)
  /-- A short option and what follows it, directly or after an equals sign. -/
  | joined (s : Setting) (text : String)
  | unknown
  deriving DecidableEq, Repr

/-- Splits at the first equals sign. -/
def splitAtEquals (s : String) : Option (String × String) :=
  let cs := s.toList
  match cs.dropWhile (· ≠ '=') with
  | [] => none
  | _ :: value => some (String.ofList (cs.takeWhile (· ≠ '=')), String.ofList value)

/-- The options that an argument may stand for, if it is none literally. -/
def abbreviations (arg : String) : List Argument :=
  if Text.startsWith arg "--" then
    match splitAtEquals arg with
    | some (start, value) =>
      (spellings.filter (Text.startsWith ·.1 start)).map fun e => .assigned e.2 value
    | none => (spellings.filter (Text.startsWith ·.1 arg)).map fun e => .option e.2
  else
    let letter := String.ofList (arg.toList.take 2)
    spellings.filterMap fun e =>
      if e.1 = letter then some (.joined e.2 (Text.dropChars 2 arg))
      else if Text.startsWith e.1 arg then some (.option e.2)
      else none

/-- Whether a text is a negative number. A line feed may follow it. -/
def isNegativeNumber (arg : String) : Bool :=
  let isDigit (c : Char) : Bool := (Text.decimalDigit? c).isSome
  let isEnd (cs : List Char) : Bool := cs = [] || cs = ['\n']
  match arg.toList with
  | '-' :: rest =>
    match rest.dropWhile isDigit with
    | '.' :: places => (places.head?.any isDigit) && isEnd (places.dropWhile isDigit)
    | after => (rest.head?.any isDigit) && isEnd after
  | _ => false

/-- What one argument is; nothing if it may be several options. -/
def classify (arg : String) : Option Argument :=
  if !Text.startsWith arg "-" || arg = "-" then some (.plain arg)
  else
    match spellings.lookup arg with
    | some s => some (.option s)
    | none =>
      let exact := (splitAtEquals arg).bind fun (start, value) =>
        (spellings.lookup start).map fun s =>
          if Text.startsWith start "--" then Argument.assigned s value else Argument.joined s value
      match exact with
      | some a => some a
      | none =>
        match abbreviations arg with
        | [a] => some a
        | _ :: _ :: _ => none
        | [] =>
          if isNegativeNumber arg || arg.toList.contains ' ' then some (.plain arg)
            else some .unknown

/-- What the arguments are. -/
def classifyAll : List String → Option (List Argument)
  | [] => some []
  | "--" :: rest => some (.divider :: rest.map .plain)
  | arg :: rest => do return (← classify arg) :: (← classifyAll rest)

/-- The options chosen, with their values, and the arguments that are none. -/
structure Parsed where
  chosen : List (Setting × String)
  plain : List String
  /-- Whether two dashes stand among the arguments. -/
  divided : Bool
  deriving DecidableEq, Repr

/-- Options as far as they are read: those that are complete, and one at the end that still needs
its value. -/
structure Opened where
  chosen : List (Setting × String)
  waiting : Option Setting
  deriving DecidableEq, Repr

namespace Opened

/-- An option with nothing joined to it. -/
def single (s : Setting) : Opened := if s.takesValue then ⟨[], some s⟩ else ⟨[(s, "")], none⟩

/-- An option with a value, if it takes one. -/
def valued (s : Setting) (value : String) : Option Opened :=
  if s.takesValue then some ⟨[(s, value)], none⟩ else none

/-- An option before others. -/
def cons (s : Setting) (o : Opened) : Opened := { o with chosen := (s, "") :: o.chosen }

/-- Takes apart a short option and what follows it: the value of an option that takes one, or
further options of one letter. -/
def ofJoined (s : Setting) (text : List Char) : Option Opened :=
  if s.takesValue then valued s (String.ofList text)
  else
    match text with
    | [] => none
    | c :: rest =>
      match spellings.lookup (String.ofList ['-', c]) with
      | none => none
      | some t => (if rest.isEmpty then some (single t) else ofJoined t rest).map (cons s)

/-- The options in one argument; nothing if they cannot be read. -/
def ofArgument? : Argument → Option Opened
  | .option s => some (single s)
  | .assigned s value => valued s value
  | .joined s text => ofJoined s text.toList
  | _ => none

end Opened

/-- Reads classified arguments. Two dashes belong to the argument next to them, so that they cannot
follow when one has been read before the last option. -/
def gather : List Argument → Option Parsed
  | [] => some ⟨[], [], false⟩
  | .divider :: rest => do
    let p ← gather rest
    return { p with divided := true }
  | .plain text :: rest => do
    let p ← gather rest
    if p.divided && !p.chosen.isEmpty then none
    else return { p with plain := text :: p.plain }
  | a :: rest => do
    let here ← Opened.ofArgument? a
    match here.waiting with
    | none =>
      let p ← gather rest
      return { p with chosen := here.chosen ++ p.chosen }
    | some t =>
      match rest with
      | .plain v :: rest =>
        let p ← gather rest
        return { p with chosen := here.chosen ++ (t, v) :: p.chosen }
      | _ => none

/-- What to do with a file. -/
structure Run where
  listsSections : Bool
  listsSymbols : Bool
  /-- The base address of a raw file, as it was given. -/
  rawBase : Option String
  /-- The options that were given two dashes for their value. -/
  valueless : List Setting
  session : Session

/-- The same with other options. -/
def Run.withOptions (r : Run) (o : Options) : Run :=
  { r with session := { r.session with options := o } }

/-- Carries over an option that was given no value: no symbol file is read, and no type of raw file
is known. -/
def Run.withoutValue (r : Run) (setting : Setting) : Run :=
  let session :=
    match setting with
    | .symbolFile => { r.session with symbolFile := none }
    | .raw => { r.session with rawType := some "" }
    | _ => r.session
  { r with valueless := setting :: r.valueless, session }

/-- Carries over one option with its value. -/
def withValue (files : Files) (r : Run) (setting : Setting) (value : String) : Option Run :=
  let s := r.session
  let o := s.options
  match setting with
  | .noColor => some (r.withOptions { o with color := false })
  | .graph => some { r with session := { s with drawsGraph := true } }
  | .noComments => some (r.withOptions { o with comments := false })
  | .noFurtherConditions => some (r.withOptions { o with furtherConditions := false })
  | .textLimit => (Text.decimal? value).map fun n => r.withOptions { o with textLimit := n }
  | .entry => some { r with session := { s with entryName := some value } }
  | .forEditor => some { r with session := { s with forEditor := true } }
  | .symbols => some { r with listsSymbols := true }
  | .calls => some { r with session := { s with callsSection := some value } }
  | .sections => some { r with listsSections := true }
  | .dump => some (r.withOptions { o with dump := true })
  | .lines => (Text.decimal? value).map fun n => r.withOptions { o with lines := n }
  | .bytes => some (r.withOptions { o with bytes := true })
  | .interactive => some (r.withOptions { o with interactive := true })
  | .symbolFile =>
    (files.contents? value).map fun f => { r with session := { s with symbolFile := some f.bytes } }
  | .debug => some (r.withOptions { o with debug := true })
  | .noSectionNames => some (r.withOptions { o with sectionNames := false })
  | .raw => some { r with session := { s with rawType := some value } }
  | .rawBase => some { r with rawBase := some value }
  | .rawBigEndian => some { r with session := { s with rawBigEndian := true } }
  | .help => none

/-- Carries over one option; of several values the last one counts. -/
def apply (files : Files) (r : Run) (choice : Setting × String) : Option Run :=
  let (setting, value) := choice
  let earlier := { r with valueless := r.valueless.filter (· ≠ setting) }
  if value = "--" then some (earlier.withoutValue setting)
    else withValue files earlier setting value

/-- What the arguments ask for; nothing if they cannot be read. -/
def read (files : Files) (args : List String) : Option Run := do
  let parsed ← gather (← classifyAll args)
  let fileName ← match parsed.plain with
    | [] => some none
    | [name] => some (some name)
    | _ => none
  let start : Session := Session.start { Options.standard with sectionNames := true } files
  parsed.chosen.foldlM (apply files) ⟨false, false, none, [], { start with fileName }⟩

open Act

/-- Sets the base address of a raw file. -/
def settleBase (r : Run) : Act Unit :=
  if r.valueless.contains .rawBase then fail .notText
  else match r.rawBase with
  | none => pure ()
  | some text =>
    if Text.startsWith text "0x" then
      match Text.hexadecimal? text with
      | some n => modify fun s => { s with rawBase := n }
      | none => fail (.badNumeral text)
    else do
      error "--rawbase must in hex format"
      die

/-- Writes the code at the entry, for the terminal or for an editor. -/
def dump (r : Run) : Act Unit := do
  let s ← get
  let base ← editorBase
  if s.forEditor then
    dropColor
    redirectTo (base ++ ".rev")
  if r.valueless.contains .lines then
    let _ ← sectionHead
    fail .wrongKind
  dumpCode s.options.lines
  if s.forEditor then
    writeEditorColors base
    announceEditor base

/-- Finds the place that is asked for, or the section whose calls are. -/
def findPlace (r : Run) : Act Unit := do
  if r.valueless.contains .calls then fail .wrongKind
  if r.valueless.contains .entry && (← get).callsSection.isNone then fail .notText
  let _ ← findEntry

/-- Does what is asked for with the file that is named, if one is. -/
def process (r : Run) : Act Unit := do
  match (← get).fileName with
  | none => pure ()
  | some name =>
    if !(← load name) then die
    if r.listsSections then listSections
    else if r.listsSymbols then listSymbols (← get).options.sectionNames none
    else
      findPlace r
      let s ← get
      if s.callsSection.isSome then listCalls
      else if s.options.dump then dump r
      else
        let _ ← Act.decompile

/-- Reads the arguments and makes them the options of the session. -/
def settle (args : List String) : Act Run := do
  match read (← get).files args with
  | none => throw (.exit 2)
  | some r =>
    modify fun s => { r.session with console := s.console, files := s.files }
    settleBase r
    return r

/-- Runs the program with its arguments. `keys` is what the user types at the prompt, and `row`
where the cursor is. -/
def run (args : List String) (keys : List String) (row : Int) : Act Unit := do
  let r ← settle args
  if (← get).options.interactive then Shell.session row keys else process r

end Decompiler.CommandLine
