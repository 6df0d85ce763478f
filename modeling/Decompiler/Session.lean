import Decompiler.Files
import Decompiler.Flow.LoopNest
import Decompiler.Scene
/-!
# Sessions

A session is what lasts from one command to the next: the options, the loaded program, the marks of
the last analysis, the reachable files, and what has been written so far. An act is a step in a
session. It may end early with a failure or a request to leave; what it changed and wrote before
stays.
-/

namespace Decompiler

/-- What has been written to the two output streams, and to the file that takes the place of the
first one. -/
structure Console where
  out : String
  err : String
  /-- The file that listings go to. -/
  redirect : Option String
  deriving DecidableEq, Repr

/-- A session. -/
structure Session where
  options : Options
  /-- Write colours for an editor, and the listing to a file. -/
  forEditor : Bool
  /-- Draw the flow graph. -/
  drawsGraph : Bool
  fileName : Option String
  /-- The symbol or address to start from, as the user gave it. -/
  entryName : Option String
  /-- The machine type of a raw file. -/
  rawType : Option String
  rawBase : Int
  rawBigEndian : Bool
  /-- A file of symbols that the user adds to those of the program, until it has been read. -/
  symbolFile : Option (List UInt8)
  /-- The section whose calls are listed. -/
  callsSection : Option String
  program : Option Program
  graph : Option Graph
  nest : Option LoopNest
  marks : Marks
  notes : Syscall.Notes
  files : Files
  /-- The last drawing of a flow graph. -/
  drawing : Option String
  console : Console

/-- A step in a session. -/
abbrev Act := EStateM Stop Session

namespace Session

/-- A session in which nothing has happened yet. -/
def start (options : Options) (files : Files) : Session where
  options := options
  forEditor := false
  drawsGraph := false
  fileName := none
  entryName := none
  rawType := none
  rawBase := 0
  rawBigEndian := false
  symbolFile := none
  callsSection := none
  program := none
  graph := none
  nest := none
  marks := Marks.empty
  notes := ∅
  files := files
  drawing := none
  console := ⟨"", "", none⟩

/-- Forgets the marks of the last analysis. -/
def clearMarks (s : Session) : Session := { s with marks := Marks.empty }

/-- Forgets the loaded program and everything about it. -/
def unload (s : Session) : Session :=
  { s with program := none, graph := none, nest := none, rawType := none, marks := Marks.empty }

end Session

namespace Act

variable {α : Type}

/-- Fails. -/
def fail (e : Fault) : Act α := throw (.fault e)

/-- An answer that may be a failure. -/
def ask (answer : Except Fault α) : Act α :=
  match answer with
  | .ok a => pure a
  | .error e => fail e

/-- Writes text to the console, or to the file that takes its place. -/
def print (text : String) : Act Unit :=
  modify fun s =>
    match s.console.redirect with
    | none => { s with console := { s.console with out := s.console.out ++ text } }
    | some path =>
      let old := match s.files.contents? path with
        | some f => (String.fromUTF8? ⟨f.bytes.toArray⟩).getD ""
        | none => ""
      { s with files := s.files.write path (old ++ text) }

/-- Puts text into a file. -/
def writeFile (path text : String) : Act Unit := do
  ask ((← get).files.checkWritable path)
  modify fun s => { s with files := s.files.write path text }

/-- Writes a line of text. -/
def printLine (text : String) : Act Unit := print (text ++ "\n")

/-- Writes a line to the error stream. -/
def report (text : String) : Act Unit :=
  modify fun s => { s with console := { s.console with err := s.console.err ++ text ++ "\n" } }

/-- Reports an error. -/
def error (text : String) : Act Unit := report ("error: " ++ text)

/-- Reports a stage of the analysis, if the user wants to know. -/
def trace (text : String) : Act Unit := do
  if (← get).options.debug then report text

/-- The text of a time span; times are not measured. -/
def elapsed : String := "0.000000s"

/-- Leaves with a status that tells of an error. -/
def die : Act α := throw (.exit 1)

/-- Goes back to the prompt, or leaves if there is none. -/
def giveUp : Act Bool := do
  if (← get).options.interactive then return false else die

/-- The loaded program. -/
def program : Act Program := do
  match (← get).program with
  | some p => return p
  | none => fail .nothingLoaded

/-- An operation on the loaded program. -/
def decode (op : Decoding α) : Act α := do
  let p ← program
  match op p with
  | .ok a p => do
    modify fun s => { s with program := some p }
    return a
  | .error e p => do
    modify fun s => { s with program := some p }
    fail e

/-- What a listing of the loaded program is written from. -/
def scene : Act Scene := do
  let p ← program
  let s ← get
  return ⟨s.options, s.marks, s.notes, p⟩

/-- Writes a listing, up to its failure if it has one. -/
def list (l : Listing α) : Act α := do
  print (l.render (← get).options.color)
  ask l.result

/-- Writes a listing of the loaded program. -/
def listScene (l : Scene → Listing α) : Act α := do list (l (← scene))

/-- Changes the marks. -/
def mark (f : Marks → Marks) : Act Unit := modify fun s => { s with marks := f s.marks }

end Act

end Decompiler
