import Decompiler.Program
/-!
# Files

The files that a session can reach, by path. A path goes through directories that its prefixes name;
a directory exists if it is listed or if a file is below it.
-/

namespace Decompiler

/-- A file: its bytes, and what the readers of executable formats and machine code make of it. -/
structure FileContents where
  bytes : List UInt8
  decoder : Decoder
  elf : Option Elf
  pe : Option Pe
  deriving DecidableEq, Repr

/-- What stands under a path. -/
inductive FileEntry where
  | file (contents : FileContents)
  | directory
  deriving DecidableEq, Repr

/-- Files and directories by path, relative to the working directory. -/
structure Files where
  entries : List (String × FileEntry)
  deriving DecidableEq, Repr

namespace FileContents

/-- A file of text. -/
def ofText (text : String) : FileContents := ⟨text.toUTF8.data.toList, ⟨none, []⟩, none, none⟩

/-- The image in a file. A raw image takes the bytes as they are; the other formats show in the
first bytes. -/
def image (f : FileContents) (rawType : Option String) (base : Int) (bigEndian : Bool) :
    Except Fault Image :=
  match rawType with
  | some type => .ok (.raw ⟨type, base, bigEndian, f.bytes⟩)
  | none =>
    match f.bytes, f.elf, f.pe with
    | 0x7f :: 0x45 :: 0x4c :: 0x46 :: _, some e, _ => .ok (.elf e)
    | 0x4d :: 0x5a :: _, _, some p => .ok (.pe p)
    | _, _, _ => .error .fileFormat

end FileContents

/-! ## Paths -/

/-- The last part of a path, after the last slash. -/
def Path.baseName (path : String) : String :=
  String.ofList (path.toList.reverse.takeWhile (· ≠ '/')).reverse

/-- A path without its last part; slashes at the end are dropped unless nothing else is left. -/
def Path.dirName (path : String) : String :=
  let head := (path.toList.reverse.dropWhile (· ≠ '/')).reverse
  if head.all (· = '/') then String.ofList head
  else String.ofList (head.reverse.dropWhile (· = '/')).reverse

/-- The parts of a path between slashes. -/
def Path.parts (path : String) : List String := (path.toList.splitOn '/').map String.ofList

/-- The parts of a path that lead on: an empty part, or a dot, stays where it is. -/
def Path.steps (path : String) : List String := (Path.parts path).filter fun p => p ≠ "" && p ≠ "."

/-- Two paths one after the other. -/
def Path.join (dir name : String) : String :=
  if dir.endsWith "/" || dir = "" then dir ++ name else dir ++ "/" ++ name

namespace Files

/-- The listed paths, each with its parts. -/
def split (fs : Files) : List (List String × FileEntry) :=
  fs.entries.map fun e => (Path.steps e.1, e.2)

/-- What stands under a path given by its parts; nothing stands for the working directory. -/
def entryAt (fs : Files) (parts : List String) : Option FileEntry :=
  if parts = [] then some .directory
  else
    match fs.split.find? (·.1 = parts) with
    | some e => some e.2
    | none => if fs.split.any (fun e => parts.isPrefixOf e.1) then some .directory else none

/-- A place that a path leads to. -/
inductive Place where
  /-- Below the working directory, which has no parts. -/
  | inside (parts : List String)
  /-- A directory that does not lie below the working directory. Nothing is known of what it
  holds. -/
  | outside
  deriving DecidableEq, Repr

/-- Follows the parts of a path one by one from a place where `entry` stands; every part but the
last has to be a directory. Gives the place that is reached and what stands there. -/
def follow (fs : Files) (here : Place) (entry : FileEntry) :
    List String → Except Fault (Place × FileEntry)
  | [] => .ok (here, entry)
  | part :: rest =>
    if entry = .directory then
      if part = "" || part = "." then fs.follow here .directory rest
      else
        match here, part with
        | .inside [], ".." => fs.follow .outside .directory rest
        | .inside parts, ".." => fs.follow (.inside parts.dropLast) .directory rest
        | .inside parts, _ =>
          match fs.entryAt (parts ++ [part]) with
          | some found => fs.follow (.inside (parts ++ [part])) found rest
          | none => .error .noSuchFile
        | .outside, ".." => fs.follow .outside .directory rest
        | .outside, _ => .error .noSuchFile
    else .error .notDirectory

/-- The place that a path names and what stands there. A path that begins with a slash starts
outside. -/
def resolve (fs : Files) (path : String) : Except Fault (Place × FileEntry) :=
  match Path.parts path with
  | [""] => .error .noSuchFile
  | "" :: parts => fs.follow .outside .directory parts
  | parts => fs.follow (.inside []) .directory parts

/-- What stands under a path. -/
def lookup (fs : Files) (path : String) : Option FileEntry :=
  (fs.resolve path).toOption.map Prod.snd

/-- The contents of a file. -/
def contents? (fs : Files) (path : String) : Option FileContents :=
  match fs.lookup path with
  | some (.file f) => some f
  | _ => none

/-- Inserts a name into a sorted list of names, once. -/
def insertName (name : String) : List String → List String
  | [] => [name]
  | n :: rest =>
    if name < n then name :: n :: rest
    else if name = n then n :: rest
    else n :: insertName name rest

/-- The names in a directory, sorted. -/
def list (fs : Files) (path : String) : Except Fault (List String) :=
  match fs.resolve path with
  | .error e => .error e
  | .ok (_, .file _) => .error .notDirectory
  | .ok (.outside, .directory) => .ok []
  | .ok (.inside here, .directory) =>
    .ok <| fs.split.foldl
      (fun names e =>
        if here.isPrefixOf e.1 then
          match e.1.drop here.length with
          | name :: _ => insertName name names
          | [] => names
        else names)
      []

/-- Checks that a file can be written: its directory has to be there, and it may not be a directory
itself. -/
def checkWritable (fs : Files) (path : String) : Except Fault Unit := do
  let dir := if Path.dirName path = "" then "." else Path.dirName path
  match ← fs.resolve dir with
  | (_, .file _) => throw .notDirectory
  | (_, .directory) => if fs.lookup path = some .directory then throw .isDirectory

/-- Puts text into a file, in place of what was there. -/
def write (fs : Files) (path : String) (text : String) : Files :=
  let entry := FileEntry.file (.ofText text)
  if fs.entries.any fun e => Path.steps e.1 = Path.steps path then
    ⟨fs.entries.map fun e => if Path.steps e.1 = Path.steps path then (e.1, entry) else e⟩
  else ⟨fs.entries ++ [(path, entry)]⟩

end Files

end Decompiler
