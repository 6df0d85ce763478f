/-!
# Commands of the shell

Every command has a name, a largest number of arguments, a way to complete its argument, and a help
text.
-/

namespace Decompiler.Shell

/-- What a data command shows. -/
inductive DataForm where
  | texts
  | words (width : Nat)
  deriving DecidableEq, Repr

/-- What a command does. -/
inductive Action where
  | help
  | load
  /-- Load a raw file of a machine type. The byte order is reset to little endian where the flag is
  set. -/
  | loadRaw (type : String) (littleEndian : Bool)
  | decompile
  | data (form : DataForm)
  | dump
  | nothing
  | symbols
  | calls
  | leave
  | sections
  | info
  | toggleSections
  | toggleComments
  deriving DecidableEq, Repr

/-- How the first argument of a command is completed. -/
inductive Completes where
  | nothing
  | files
  | symbols
  deriving DecidableEq, Repr

/-- A command. -/
structure Command where
  name : String
  maxArgs : Nat
  action : Action
  completes : Completes
  /-- The arguments, and then lines that say what the command does. -/
  help : List String
  /-- Whether the command is listed and its name completed. -/
  listed : Bool
  deriving DecidableEq, Repr

/-- The arguments of the commands that show something at a place. -/
def placeArgs : String := "SYMBOL|0xXXXX|EP [NB_LINES]"

/-- A command that loads a raw file. -/
def rawCommand (type label : String) (littleEndian : Bool) : Command :=
  ⟨"lraw" ++ type, 1, .loadRaw type littleEndian, .files,
    ["filename", "Load a " ++ label ++ " raw file."], true⟩

/-- A command that shows data. -/
def dataCommand (name unit : String) (form : DataForm) : Command :=
  ⟨name, 2, .data form, .symbols,
    [placeArgs, "Print data in " ++ unit ++ ", it stops when the end of the section is found"],
      true⟩

/-- All commands, in the order in which they are listed. -/
def commands : List Command :=
  [⟨"calls", 1, .calls, .symbols, ["[SECTION_NAME]",
    "Print all calls which are in the given section"], true⟩,
   dataCommand "da" "ascii" .texts,
   dataCommand "db" "bytes" (.words 1),
   dataCommand "dd" "dwords" (.words 4),
   dataCommand "dw" "words" (.words 2),
   dataCommand "dq" "qwords" (.words 8),
   ⟨"dump", 2, .dump, .symbols, [placeArgs, "Disassemble only."], true⟩,
   ⟨"exit", 0, .leave, .nothing, ["", "Exit"], true⟩,
   ⟨"help", 0, .help, .nothing, ["", "Display this help"], true⟩,
   ⟨"info", 0, .info, .nothing, ["", "Information about the current binary"], true⟩,
   ⟨"load", 1, .load, .files, ["filename", "Load a new binary file."], true⟩,
   rawCommand "arm" "ARM" false,
   rawCommand "mips" "MIPS" false,
   rawCommand "mips64" "MIPS64" false,
   rawCommand "x86" "x86" true,
   rawCommand "x64" "x64" true,
   ⟨"sections", 0, .sections, .nothing, ["", "Print all sections"], true⟩,
   ⟨"sym", 3, .symbols, .symbols,
     ["[SYMBOL 0xXXXX] [| FILTER]", "Print all symbols or set a new symbol.",
      "You can filter symbols by searching the word FILTER."], true⟩,
   ⟨"x", 1, .decompile, .symbols, ["[SYMBOL|0xXXXX|EP]", "Decompile. By default it will be main."],
     true⟩,
   ⟨"display.print_section", 0, .toggleSections, .nothing,
     ["", "Print or not section when an address is found"], true⟩,
   ⟨"display.print_comments", 0, .toggleComments, .nothing, ["", "Print or not comments"], true⟩,
   ⟨"set", 3, .nothing, .nothing, ["", "Set options"], false⟩]

/-- The command of a name. -/
def command? (name : String) : Option Command := commands.find? (·.name = name)

end Decompiler.Shell
