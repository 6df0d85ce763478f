import Decompiler.LineEditor
import Decompiler.Session
import Decompiler.Shell.Command
import Decompiler.Text.Words
/-!
# Completion of command lines

The first word of a line is completed to a command, and the word after it to a file or a symbol, as
the command says. A candidate is what is missing of the word, with a blank or a slash at its end.
-/

namespace Decompiler.Shell

/-- With this many candidates none is shown. -/
def candidateLimit : Nat := 80

/-- What a word with an ending has after a beginning of it. -/
def rest (start word ending : String) : String := Text.dropChars start.length (word ++ ending)

/-- The candidates, or nothing if there are too many. -/
def limited (candidates : List String) : Option (List String) :=
  if candidateLimit ≤ candidates.length then none else some candidates

/-- The commands whose names begin with a text. -/
def completeCommand (start : String) : List String :=
  (commands.filter fun c => c.listed && Text.startsWith c.name start).map fun c =>
    rest start c.name " "

/-- A file name as it is written in a command line. -/
def escapeBlanks (name : String) : String :=
  String.ofList (name.toList.flatMap fun c => if c = ' ' then ['\\', ' '] else [c])

/-- What is missing of the name of a file in a directory, as it is written in a command line. -/
def fileCandidate (files : Files) (dir base name : String) : String :=
  rest base (escapeBlanks name) (if files.lookup (Path.join dir name) = some .directory then "/"
    else " ")

/-- The files whose names begin with the last part of a path. -/
def completeFile (files : Files) (path : String) : Except Fault (Option (List String)) :=
  let base := Path.baseName path
  let dir := if Path.dirName path = "" then "." else Path.dirName path
  match files.list dir with
  | .error .noSuchFile => .ok (some [])
  | .error e => .error e
  | .ok names =>
    .ok <| limited <| (names.filter (Text.startsWith · base)).map (fileCandidate files dir base)

/-- The symbols that begin with a text, up to the limit. A symbol without a name cannot be
compared. -/
def completeSymbol (start : String) :
    (room : Nat) → List SymbolName → Except Fault (Option (List String))
  | 0, _ => .ok none
  | _, [] => .ok (some [])
  | _, none :: _ => .error .unnamedSymbol
  | room + 1, some name :: more =>
    if Text.startsWith name start then do
      return (← completeSymbol start room more).map (rest start name " " :: ·)
    else completeSymbol start (room + 1) more

/-- Whether all candidates have a character at a place. None may end before the place. -/
def agreeAt (c : Char) (place : Nat) : List Line → Except Fault Bool
  | [] => .ok true
  | w :: more =>
    match w[place]? with
    | none => .error .outOfRange
    | some d => if d = c then agreeAt c place more else .ok false

/-- What the other candidates have in common with the rest of a candidate, which begins at a
place. -/
def agreeFrom (others : List Line) (place : Nat) : Line → Except Fault Line
  | [] => .ok []
  | c :: rest => do
    if ← agreeAt c place others then return c :: (← agreeFrom others (place + 1) rest)
      else return []

/-- The last one of the shortest candidates, and the others. -/
def pickShortest (first : Line) : List Line → Line × List Line
  | [] => (first, [])
  | second :: more =>
    let (shortest, others) := pickShortest second more
    if first.length < shortest.length then (first, second :: more) else (shortest, first :: others)

/-- The text that all candidates begin with: a shortest one is compared with the others, place by
place. -/
def commonStart (first : Line) (more : List Line) : Except Fault Line :=
  let (shortest, others) := pickShortest first more
  agreeFrom others 0 shortest

/-- The candidates for the last word of a line, of which `words` are the words. -/
def candidates (s : Session) (words : List String) (start : String) :
    Except Fault (Option (List String)) :=
  match words with
  | [_] => .ok (limited (completeCommand start))
  | first :: others =>
    match (command? first).map Command.completes with
    | some .files => if others.length = 1 then completeFile s.files start else .ok (some [])
    | some .symbols =>
      match s.program with
      | some p =>
        if others.length = 1 then completeSymbol start candidateLimit p.symbols.byName.keys
          else .ok (some [])
      | none => .ok (some [])
    | _ => .ok (some [])
  | [] => .ok (some [])

/-- The last word without the mark at its end. -/
def unfinished (words : List String) : String :=
  String.ofList ((words.getLast?.getD "").toList.dropLast)

/-- The completion of a line. A mark at its end shows whether a new word begins there. -/
def complete (line : Line) : Act Completion := do
  match Text.words? (String.ofList (line ++ ['_'])) with
  | none => Act.fail .badQuoting
  | some words =>
    let start := unfinished words
    match ← Act.ask (candidates (← get) words start) with
    | none =>
      Act.print "\ntoo much possibilities\n"
      return ⟨none, none, none⟩
    | some found =>
      match found.map String.toList with
      | first :: second :: more =>
        let common ← Act.ask (commonStart first (second :: more))
        return ⟨some (first :: second :: more), some start.toList, some common⟩
      | lines => return ⟨some lines, some start.toList, none⟩

end Decompiler.Shell
