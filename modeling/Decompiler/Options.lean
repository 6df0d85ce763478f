/-!
# Options

What the user can choose about an analysis and its output.
-/

namespace Decompiler

/-- The options of a session. -/
structure Options where
  /-- Show the machine instructions as comments. -/
  comments : Bool
  /-- Show the section of an address. -/
  sectionNames : Bool
  /-- Show further conditions of a loop or branch as such. -/
  furtherConditions : Bool
  color : Bool
  /-- The most characters that are shown of a text found in the image. -/
  textLimit : Int
  /-- Show plain assembly. -/
  dump : Bool
  /-- The number of lines of a dump. -/
  lines : Int
  /-- Show the bytes of instructions. -/
  bytes : Bool
  /-- Addresses of data are accepted as well as those of code. -/
  data : Bool
  /-- Report the stages of the analysis. -/
  debug : Bool
  /-- A failing command returns to the prompt. -/
  interactive : Bool
  deriving DecidableEq, Repr

/-- The options when nothing is chosen. -/
def Options.standard : Options where
  comments := true
  sectionNames := false
  furtherConditions := true
  color := true
  textLimit := 30
  dump := false
  lines := 30
  bytes := false
  data := false
  debug := false
  interactive := false

end Decompiler
