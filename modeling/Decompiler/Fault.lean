/-!
# Causes of failure

Everything that can stop an analysis, a listing or a command, as one type of causes. A cause says
what was wrong in the domain's terms; the text or code a front end reports for it is decided where
it is reported.
-/

namespace Decompiler

/-- Why an operation could not go on. -/
inductive Fault where
  /-- A jump leads to an address where nothing can be decoded. -/
  | undecodable
  /-- An instruction has fewer operands than its form requires. -/
  | missingOperand
  /-- A memory operand without a base register, on a machine that has no segments. -/
  | noSegment
  /-- An operand of a kind that cannot be shown stands among operands that can. -/
  | unprintableOperand
  /-- A number does not fit in an unsigned 32-bit word. -/
  | wordRange (n : Int)
  /-- A constant is beyond the range of binary64. -/
  | realRange
  /-- A number is not the code of a byte. -/
  | byteRange (n : Int)
  /-- A multiplication of an operand width that no register pair holds. -/
  | multiplierWidth (bytes : Int)
  /-- A system call number that has no entry in the table. -/
  | unknownSyscall (number : Int)
  /-- An address that is in no section. -/
  | noSection (addr : Int)
  /-- A node of the flow graph has no entry in one of the graph's tables. -/
  | noEdge (addr : Int)
  /-- A predecessor arrives at a join that was not waiting for it. -/
  | notAwaited (addr : Int)
  /-- A loop that the loop tables do not hold. -/
  | noLoop (start : Int)
  /-- Code is attached to a place outside of every branch. -/
  | noBranch
  /-- All branches that lead to a node come out of spurious loops. -/
  | onlySpurious
  /-- A block was expected where another construct stands. -/
  | notABlock
  /-- A construct or block that should hold something is empty. -/
  | emptyBlock
  /-- A place in a list that the list does not have. -/
  | outOfRange
  /-- A synthetic instruction was asked for what only a machine instruction has. -/
  | syntheticItem
  /-- A text that is not a numeral. -/
  | badNumeral (text : String)
  /-- A quotation that is not closed, or an escape with nothing after it. -/
  | badQuoting
  /-- A command line with no word in it, or an empty word where one letter is needed. -/
  | emptyWord
  /-- Bytes that are not well-formed text. -/
  | badEncoding
  /-- A symbol without a name was used as if it had one. -/
  | unnamedSymbol
  /-- A text that is missing, such as the name of a symbol without one, was joined to another. -/
  | unnamedText
  /-- A symbol table that ends before its last record. -/
  | truncatedSymbols
  /-- A text that runs past the end of the file. -/
  | truncatedText
  /-- The image lists no import directory. -/
  | noImports
  /-- The image lists no procedure linkage table. -/
  | noLinkageTable
  /-- A relocation or symbol number beyond the end of its table. -/
  | badRelocation
  /-- A machine type without a name. -/
  | unknownMachine (n : Int)
  /-- A raw image of a type for which no decoder mode exists. -/
  | unknownRawType (name : String)
  /-- A text was asked for from an image that holds none. -/
  | noStrings
  /-- A text was asked for with no room for any character. -/
  | emptyText
  /-- The image does not tell data from code by address. -/
  | noDataMap
  /-- A word width that is not one of 1, 2, 4 and 8 bytes. -/
  | wordWidth (bytes : Int)
  /-- A colour number outside of the terminal palette. -/
  | unknownColor (n : Int)
  /-- A colour role that the user's colours do not define. -/
  | undefinedRole
  /-- A command that needs a loaded file. -/
  | nothingLoaded
  /-- The named file does not exist. -/
  | noSuchFile
  /-- A directory stands where a file is needed. -/
  | isDirectory
  /-- A file stands where a directory is needed. -/
  | notDirectory
  /-- A value that is not an integer where one is needed. -/
  | notAnInteger
  /-- A value that is not a text where one is needed. -/
  | notText
  /-- A value of a kind that the operation does not take. -/
  | wrongKind
  /-- Places were asked for in a value that has none. -/
  | noPlaces
  /-- A file is neither of the supported executable formats. -/
  | fileFormat
  /-- The architecture of the image is not supported. -/
  | unsupportedArch (name : String)
  /-- The import directory could not be read. -/
  | importFailure (text : String)
  /-- No symbol of this name. -/
  | symbolNotFound (name : String)
  /-- No section of this name. -/
  | sectionNotFound (name : String)
  /-- The address is not in executable memory. -/
  | notExecutable (addr : Int)
  /-- The address is not in the image. -/
  | notMapped (addr : Int)
  /-- A conditional jump both of whose ways leave the loop it stands in. -/
  | strayConditional (addr : Int)
  /-- A search was given fewer steps than the graph needs. -/
  | stepBound
  deriving DecidableEq, Repr

/-- What ends a run early: a failure, or a request to leave with a status. -/
inductive Stop where
  | fault (cause : Fault)
  | exit (status : Nat)
  deriving DecidableEq, Repr

end Decompiler
