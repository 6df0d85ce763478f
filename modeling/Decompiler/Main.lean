import Decompiler.CommandLine
/-!
# The program

Reads the files that the arguments name, runs the command line, and writes what it has to say. At
the prompt every line of input is typed in as a whole.
-/

namespace Decompiler.Terminal

/-- The file of a name, if it can be read. Nothing is known of its code but the bytes. -/
def readFile? (name : String) : IO (Option (String × FileEntry)) := do
  try
    let bytes ← IO.FS.readBinFile name
    return some (name, .file ⟨bytes.toList, ⟨none, []⟩, none, none⟩)
  catch _ => return none

/-- The files of some names that can be read. -/
def readFiles (names : List String) : IO (List (String × FileEntry)) := do
  let mut found := []
  for name in names do
    match ← readFile? name with
    | some e => found := found ++ [e]
    | none => pure ()
  return found

/-- Adds files that are not known yet. -/
def addFiles (s : Session) (entries : List (String × FileEntry)) : Session :=
  let known := s.files.entries
  { s with files := ⟨known ++ entries.filter fun e => !known.any (·.1 = e.1)⟩ }

/-- Writes what has been printed since the last time. -/
def flush (s : Session) : IO Session := do
  IO.print s.console.out
  IO.eprint s.console.err
  return { s with console := { s.console with out := "", err := "" } }

/-- Runs an act and writes what it prints; gives a status if it ends the program. -/
def perform {α : Type} (s : Session) (a : Act α) : IO (Session × Except UInt32 α) := do
  match a s with
  | .ok x s => return (← flush s, .ok x)
  | .error (.exit status) s => return (← flush s, .error status.toUInt32)
  | .error (.fault e) s =>
    let s ← flush s
    IO.eprintln (reprStr e)
    return (s, .error 1)

/-- Keeps the files that were written, and the drawing of a graph. -/
def keepFiles (given : Files) (s : Session) : IO Unit := do
  for (name, entry) in s.files.entries do
    match entry with
    | .file f =>
      if given.entries.lookup name ≠ some entry then IO.FS.writeBinFile name ⟨f.bytes.toArray⟩
    | .directory => pure ()
  match s.drawing with
  | some text => IO.FS.writeFile "d3/graph.js" text
  | none => pure ()

/-- Handles lines of input until they end. -/
partial def prompt (s : Session) (editor : Editor) : IO (Session × UInt32) := do
  let line ← (← IO.getStdin).getLine
  if line.isEmpty then
    let (s, _) ← perform s (Shell.close editor)
    return (s, 0)
  let typed := (line.dropEndWhile (· = '\n')).toString
  let s := addFiles s (← readFiles ((Text.words? typed).getD []))
  let keys := (if typed = "" then [] else [typed]) ++ ["\r"]
  match ← perform s (Shell.pressAll 1 editor keys) with
  | (s, .ok editor) => prompt s editor
  | (s, .error status) => return (s, status)

end Decompiler.Terminal

open Decompiler Terminal in
/-- Runs the program. -/
def main (args : List String) : IO UInt32 := do
  let given : Files := ⟨← readFiles (args ++ [Shell.historyFile])⟩
  let s := Session.start .standard given
  match ← perform s (CommandLine.settle args) with
  | (_, .error status) => return status
  | (s, .ok r) =>
    let (s, status) ←
      if s.options.interactive then
        match ← perform s (Shell.begin 1) with
        | (s, .ok editor) => prompt s editor
        | (s, .error status) => pure (s, status)
      else do
        match ← perform s (CommandLine.process r) with
        | (s, .ok _) => pure (s, 0)
        | (s, .error status) => pure (s, status)
    keepFiles given s
    return status
