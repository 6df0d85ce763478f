import Decompiler.Fault
import Decompiler.Text.Blank
/-!
# The line editor

A line of text that is edited key by key, with a history of the lines entered before. A key changes
the state of the editor and writes control sequences to the terminal. Three keys ask something of
the program: to run the line, to complete it, and to be told of an interruption. Then the editor
waits for the answer, and the key ends with what it does after that.
-/

namespace Decompiler

/-- A line of text. -/
abbrev Line := List Char

/-- The state of the editor. -/
structure Editor where
  line : Line
  /-- The place of the cursor in the line. -/
  cursor : Nat
  /-- The row of the terminal in which the line is shown. -/
  row : Int
  /-- The lines entered before, the last one first. -/
  history : List Line
  /-- The place in the history that is shown; none for a line of its own. -/
  place : Option Nat
  /-- The line that was being edited when the history was entered. -/
  saved : Line
  /-- Whether the terminal passes keys on one by one. -/
  raw : Bool
  deriving DecidableEq, Repr

/-- What a key stands for. -/
inductive Key where
  | left
  | right
  | home
  | toEnd
  | wordLeft
  | wordRight
  | up
  | down
  | pageUp
  | pageDown
  | backspace
  | delete
  | eraseWord
  | eraseBefore
  | eraseAfter
  | clear
  | enter
  | complete
  | interrupt
  | text (chunk : Line)
  | unknown
  deriving DecidableEq, Repr

/-- What the editor asks for before a key has its full effect. -/
inductive Request where
  | nothing
  | run (line : Line)
  | complete (start : Line)
  | interrupt
  deriving DecidableEq, Repr

/-- Candidates to complete a line: the rest of each, the text in front that they all share, and what
can be added in any case. No candidates at all means that there were too many. -/
structure Completion where
  candidates : Option (List Line)
  token : Option Line
  common : Option Line
  deriving DecidableEq, Repr

/-- The effect of a key: the next state, the text for the terminal, what is asked for, and a
failure. -/
structure Effect where
  editor : Editor
  output : Line
  request : Request
  fault : Option Fault
  deriving DecidableEq, Repr

namespace Key

/-- What the terminal sends for the keys that have a meaning of their own. -/
def sequences : List (String × Key) :=
  [("\x1b[D", left), ("\x1b[C", right), ("\x7f", backspace), ("\x1b[7~", home), ("\x1b[8~", toEnd),
   ("\x1b[A", up), ("\x1b[B", down), ("\x1b[5~", pageUp), ("\x1b[6~", pageDown),
   ("\x1b[3~", delete),
   ("\x17", eraseWord), ("\x15", eraseBefore), ("\x0b", eraseAfter), ("\x1b[1;5D", wordLeft),
   ("\x1b[1;5C", wordRight), ("\x0d", enter), ("\x0c", clear), ("\x09", complete), ("\x01", home),
   ("\x05", toEnd), ("\x03", interrupt)]

/-- The key that ends the session. -/
def ending : String := "\x04"

/-- The key for what the terminal sent. Text is what begins with a character that is no control
character. -/
def ofInput (s : String) : Except Fault Key :=
  match sequences.lookup s with
  | some k => .ok k
  | none =>
    match s.toList with
    | [] => .error .emptyWord
    | c :: rest => .ok (if 0x20 ≤ c.toNat then text (c :: rest) else unknown)

end Key

namespace Effect

/-- An effect that asks for nothing. -/
def plain (e : Editor) (output : Line) : Effect := ⟨e, output, .nothing, none⟩

/-- An effect that waits for an answer. -/
def asks (e : Editor) (output : Line) (r : Request) : Effect := ⟨e, output, r, none⟩

/-- An effect that stops with a failure. -/
def fails (e : Editor) (output : Line) (f : Fault) : Effect := ⟨e, output, .nothing, some f⟩

end Effect

namespace Editor

/-- The text in front of the line. -/
def prompt : Line := ">> ".toList

/-- An editor with nothing entered, whose line is shown in a row. -/
def start (row : Int) : Editor := ⟨[], 0, row, [], none, [], false⟩

/-- Shows the prompt. -/
def promptText : Line := "\x1b[;33m".toList ++ prompt ++ "\x1b[0m".toList

/-- Moves the cursor of the terminal to a column. -/
def toColumn (e : Editor) (column : Nat) : Line :=
  ("\x1b[" ++ toString e.row ++ ";" ++ toString column ++ "H").toList

/-- Moves the cursor of the terminal to the place of the cursor in the line. -/
def toCursor (e : Editor) : Line := e.toColumn (1 + e.cursor + prompt.length)

/-- Erases what is right of the cursor of the terminal. -/
def eraseRight : Line := "\x1b[K".toList

/-- The part of the line in front of the cursor. -/
def before (e : Editor) : Line := e.line.take e.cursor

/-- The part of the line after the cursor. -/
def after (e : Editor) : Line := e.line.drop e.cursor

/-- Shows the line in a new row, with the cursor at its end. -/
def newPrompt (e : Editor) (row : Int) : Editor × Line :=
  let e := { e with row, cursor := e.line.length }
  (e, e.toColumn 0 ++ promptText ++ e.line)

/-- Shows the line again from its start. -/
def redraw (e : Editor) : Line := { e with cursor := 0 }.toCursor ++ eraseRight ++ e.line

/-- The start of the word in front of a place, given that the place is in the line. -/
def wordStart (written : Line) (place : Nat) : Nat :=
  let rec skip (p : Char → Bool) : Nat → Nat
    | 0 => 0
    | j + 1 => if written[j + 1]?.any p then skip p j else j + 1
  let j := skip (· ≠ ' ') (skip (· = ' ') (place - 1))
  if j = 0 then 0 else j + 1

/-- The start of the word in front of the cursor; the cursor may stand beyond the line, and then
there is none. -/
def previousWord (e : Editor) : Except Fault Nat :=
  if 1 < e.cursor && e.line.length < e.cursor then .error .outOfRange
    else .ok (wordStart e.line e.cursor)

/-- The end of the word after the cursor. -/
def nextWord (e : Editor) : Nat :=
  let blanks := e.after.takeWhile (· = ' ')
  let word := (e.after.dropWhile (· = ' ')).takeWhile (· ≠ ' ')
  e.cursor + blanks.length + word.length

/-- Puts text at the cursor. -/
def insert (e : Editor) (chunk : Line) : Effect :=
  let next :=
    { e with
      line := e.before ++ chunk ++ e.after
      cursor := e.before.length + chunk.length
      place := none }
  .plain next (chunk ++ eraseRight ++ e.after ++ next.toCursor)

/-- Moves the cursor to a place. -/
def moveTo (e : Editor) (place : Nat) : Effect :=
  let next := { e with cursor := place }
  .plain next next.toCursor

def moveLeft (e : Editor) : Editor × Line :=
  if e.cursor = 0 then (e, []) else ({ e with cursor := e.cursor - 1 }, "\x1b[1D".toList)

def moveRight (e : Editor) : Effect :=
  if e.cursor < e.line.length then .plain { e with cursor := e.cursor + 1 } "\x1b[1C".toList
    else .plain e []

/-- Erases the character at the cursor. -/
def deleteHere (e : Editor) : Editor × Line :=
  if e.cursor = e.line.length then (e, [])
  else
    let tail := e.line.drop (e.cursor + 1)
    let next := { e with line := e.before ++ tail, place := none }
    (next, eraseRight ++ tail ++ next.toCursor)

/-- Erases the character in front of the cursor. -/
def deleteLeft (e : Editor) : Effect :=
  if e.cursor = 0 then .plain e []
  else
    let (e, moved) := e.moveLeft
    let (e, erased) := e.deleteHere
    .plain { e with place := none } (moved ++ erased)

/-- Erases the word in front of the cursor. -/
def deleteWord (e : Editor) : Effect :=
  if e.cursor = 0 then .plain e []
  else
    match e.previousWord with
    | .error f => .fails e [] f
    | .ok j =>
      let next := { e with line := e.line.take j ++ e.after, cursor := j, place := none }
      .plain next (next.toCursor ++ eraseRight ++ e.after ++ next.toCursor)

/-- Moves the cursor to the word in front of it. -/
def moveWordLeft (e : Editor) : Effect :=
  if e.cursor = 0 then .plain e []
  else
    match e.previousWord with
    | .error f => .fails e [] f
    | .ok j => e.moveTo j

/-- Erases everything in front of the cursor. -/
def deleteBefore (e : Editor) : Effect :=
  let next := { e with line := e.after, cursor := 0, place := none }
  .plain next (next.toCursor ++ eraseRight ++ next.line ++ next.toCursor)

def clearScreen (e : Editor) : Effect :=
  let next := { e with row := 1, cursor := e.line.length }
  .plain next ("\x1b[2J".toList ++ next.toColumn 0 ++ promptText ++ e.line)

/-! ## History -/

/-- Shows a line of the history, with the cursor at its end. -/
def revive (e : Editor) (line : Line) (place : Option Nat) : Effect :=
  let next := { e with line, place, cursor := line.length }
  .plain next next.redraw

/-- Goes to the line before in the history. -/
def older (e : Editor) : Effect :=
  let k := e.place.elim 0 (· + 1)
  match e.history[k]? with
  | none => .plain e []
  | some line => { e with saved := if e.place = none then e.line else e.saved }.revive line (some k)

/-- Goes to the line after in the history, at last to the line that was left. -/
def newer (e : Editor) : Effect :=
  match e.place with
  | none => .plain e []
  | some 0 => e.revive e.saved none
  | some (k + 1) => e.revive (e.history[k]?.getD []) (some k)

/-- Shows a line of the history and leaves the cursor where it is. -/
def reviveInPlace (e : Editor) (line : Line) (place : Option Nat) : Effect :=
  let next := { e with line, place }
  .plain next (next.redraw ++ next.toCursor)

/-- Looks for an older line that begins with the text in front of the cursor, from a place in the
history on. -/
def searchOlder (e : Editor) (start : Line) (k : Nat) : List Line → Effect
  | [] => .plain e []
  | line :: rest =>
    if start.isPrefixOf line then e.reviveInPlace line (some k)
    else { e with place := some k }.searchOlder start (k + 1) rest

/-- Goes back to the last line that begins with the text in front of the cursor. -/
def olderMatch (e : Editor) : Effect :=
  let e := { e with saved := if e.place = none then e.line else e.saved }
  let k := e.place.elim 0 (· + 1)
  e.searchOlder e.before k (e.history.drop k)

/-- Looks for a newer line that begins with a text, below a place in the history. -/
def searchNewer (e : Editor) (start : Line) : Nat → Effect
  | 0 => e.reviveInPlace e.saved none
  | k + 1 =>
    let line := e.history[k]?.getD []
    if start.isPrefixOf line then e.reviveInPlace line (some k) else e.searchNewer start k

/-- Goes on to the next line that begins with the text in front of the cursor, at last to the line
that was left. -/
def newerMatch (e : Editor) : Effect :=
  match e.place with
  | none => .plain e []
  | some k => e.searchNewer e.before k

/-! ## Keys that ask for something -/

/-- After the line has been run: an empty line in a new row. -/
def afterRun (e : Editor) (row : Int) : Effect :=
  let (e, out) := { e with raw := true, line := [], place := none }.newPrompt row
  .plain e out

/-- Enters the line; an empty one is not run. The line that is shown from the top of the history is
not added to it again. -/
def enterLine (e : Editor) (row : Int) : Effect :=
  if e.line = [] then
    let next := e.afterRun row
    { next with output := '\n' :: next.output }
  else
    let history := if e.place = some 0 then e.history else e.line :: e.history
    .asks { e with raw := false, history } ['\n'] (.run e.line)

/-- Asks to complete the text in front of the cursor. -/
def askCompletion (e : Editor) : Effect := .asks { e with raw := false } [] (.complete e.before)

/-- Shows the candidates, each behind the text that they share. -/
def candidateList (token : Line) (candidates : List Line) : Line :=
  candidates.flatMap fun c => token ++ c ++ ['\n']

/-- Completes the line: a single candidate is put in; of several, what they have in common, and they
are shown. -/
def afterCompletion (e : Editor) (c : Completion) (row : Int) : Effect :=
  match c.candidates with
  | none =>
    let (e, out) := { e with raw := true }.newPrompt row
    .plain e out
  | some [] => .plain { e with raw := true } []
  | some [only] =>
    let line := e.before ++ only ++ e.after
    let next := { e with raw := true, line, cursor := line.length }
    .plain next next.redraw
  | some candidates =>
    match c.common, c.token with
    | none, _ => .fails e [] .unnamedText
    | some _, none => .fails e ['\n'] .unnamedText
    | some common, some token =>
      let line := e.before ++ common ++ e.after
      let (e, out) := { e with raw := true, line }.newPrompt row
      .plain e (['\n'] ++ candidateList token candidates ++ out)

/-- Shows that an interruption was asked for. -/
def askInterrupt (e : Editor) (row : Int) : Effect :=
  let (e, out) := { e with raw := true }.newPrompt row
  .asks { e with raw := false } ("^C\n".toList ++ out) .interrupt

/-- After an interruption. -/
def afterInterrupt (e : Editor) : Effect := .plain { e with raw := true } []

/-- The effect of a key; `row` is where the cursor of the terminal is. -/
def press (e : Editor) (row : Int) : Key → Effect
  | .left => let (e, out) := e.moveLeft; .plain e out
  | .right => e.moveRight
  | .home => e.moveTo 0
  | .toEnd => e.moveTo e.line.length
  | .wordLeft => e.moveWordLeft
  | .wordRight => e.moveTo e.nextWord
  | .up => e.older
  | .down => e.newer
  | .pageUp => e.olderMatch
  | .pageDown => e.newerMatch
  | .backspace => e.deleteLeft
  | .delete => let (e, out) := e.deleteHere; .plain e out
  | .eraseWord => e.deleteWord
  | .eraseBefore => e.deleteBefore
  | .eraseAfter => .plain { e with line := e.before, place := none } eraseRight
  | .clear => e.clearScreen
  | .enter => e.enterLine row
  | .complete => e.askCompletion
  | .interrupt => e.askInterrupt row
  | .text chunk => e.insert chunk
  | .unknown => .plain e []

/-! ## Keeping the history -/

/-- The history as the text of a file, the oldest line first. -/
def historyText (history : List Line) : String :=
  String.ofList (history.reverse.flatMap (· ++ ['\n']))

/-- The history in the text of a file; the last character of a line is its line end. -/
def historyOf (text : String) : List Line :=
  ((Text.lines text).map fun l => l.toList.dropLast).reverse

end Editor

end Decompiler
