import Decompiler.Session
/-!
# The user's colours

The user can choose colours in a file of their own. A file that cannot be read is replaced by the
usual one. A file from before notes had a colour is completed, and then the program has to be
started again.
-/

namespace Decompiler

/-- What the user's file of colours amounts to. -/
inductive UserColors where
  /-- There is no file, or it cannot be read. -/
  | unusable
  /-- A file, with or without a version, that gives some roles a colour. -/
  | defined (versioned : Bool) (palette : Palette)
  deriving DecidableEq, Repr

namespace UserColors

/-- The name of the file. -/
def fileName : String := "custom_colors.py"

/-- The file with the usual colours. -/
def standardText : String :=
  String.join <|
    ["VERSION = 1.1", "", "class COLOR:", "    def __init__(self, val, bold):",
      "        self.val  = str(val)",
     "        self.bold = bold", "", "COLOR_SECTION        = COLOR(81, False)",
     "COLOR_KEYWORD        = COLOR(161, True)", "COLOR_VAR            = COLOR(208, True)",
     "COLOR_TYPE           = COLOR(81, False)", "COLOR_COMMENT        = COLOR(242, False)",
     "COLOR_ADDR           = COLOR(242, False)", "COLOR_STRING         = COLOR(144, False)",
     "COLOR_SYMBOL         = COLOR(144, False)", "COLOR_RETCALL        = COLOR(161, False)",
     "COLOR_INTERN_COMMENT = COLOR(38, False)"].map (· ++ "\n")

/-- What is added to a file that is not complete. -/
def completion : String := "\nCOLOR_INTERN_COMMENT = COLOR(38, False)\nVERSION = 1"

end UserColors

/-- A text in the colour of a role, which the palette has to define. -/
def Palette.paint (p : Palette) (r : Role) (text : String) : Except Fault String :=
  match p.tone? r with
  | some t => .ok (t.paint text)
  | none => .error .undefinedRole

/-- Settles the user's colours, given the text of the file and what it amounts to. -/
def Act.userColors (text : String) (colors : UserColors) : Act Palette := do
  let write (text : String) : Act Unit :=
    modify fun s => { s with files := s.files.write UserColors.fileName text }
  match colors with
  | .unusable =>
    write UserColors.standardText
    return Palette.standard
  | .defined versioned palette =>
    if versioned && (palette.tone? .note).isSome then
      write text
      return palette
    else
      write (text ++ UserColors.completion)
      printLine ("Your file " ++ UserColors.fileName ++ " has been updated.")
      printLine "You can run again your command"
      throw (.exit 0)

end Decompiler
