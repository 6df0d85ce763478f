/-!
# Blanks, lines and parts of texts

What splitting a text into fields and lines, and looking for one text in another, depend on.
-/

namespace Decompiler.Text

/-- Characters that separate fields: the ASCII separators and the Unicode blanks. -/
def isBlank (c : Char) : Bool :=
  let n := c.toNat
  (9 ≤ n && n ≤ 13) || (28 ≤ n && n ≤ 32) || n = 0x85 || n = 0xa0 || n = 0x1680 ||
    (0x2000 ≤ n && n ≤ 0x200a) || n = 0x2028 || n = 0x2029 || n = 0x202f || n = 0x205f || n = 0x3000

/-- Splits into maximal runs of characters that are not blank; `word` is the current run,
reversed. -/
def fieldsFrom (word : List Char) : List Char → List (List Char)
  | [] => if word.isEmpty then [] else [word.reverse]
  | c :: rest =>
    if isBlank c then
      if word.isEmpty then fieldsFrom [] rest else word.reverse :: fieldsFrom [] rest
    else fieldsFrom (c :: word) rest

/-- The fields of a line: its maximal runs of characters that are not blank. -/
def fields (s : String) : List String := (fieldsFrom [] s.toList).map String.ofList

/-- Line ends are a line feed, a carriage return, or the two together; each becomes one line
feed. -/
def unifyLineEnds : List Char → List Char
  | [] => []
  | '\r' :: '\n' :: rest => '\n' :: unifyLineEnds rest
  | '\r' :: rest => '\n' :: unifyLineEnds rest
  | c :: rest => c :: unifyLineEnds rest

/-- Splits after each line feed; `line` is the current line, reversed. -/
def linesFrom (line : List Char) : List Char → List (List Char)
  | [] => if line.isEmpty then [] else [line.reverse]
  | c :: rest =>
    if c = '\n' then (c :: line).reverse :: linesFrom [] rest else linesFrom (c :: line) rest

/-- The lines of a text file, each with its line feed except for an unfinished last one. -/
def lines (s : String) : List String :=
  (linesFrom [] (unifyLineEnds s.toList)).map String.ofList

/-- Where `needle` first stands in a text. -/
def placeIn? (needle : List Char) : List Char → Option Nat
  | [] => if needle.isEmpty then some 0 else none
  | c :: rest =>
    if needle.isPrefixOf (c :: rest) then some 0 else (placeIn? needle rest).map (· + 1)

/-- Whether the second text contains the first. -/
def occursIn (needle s : String) : Bool := (placeIn? needle.toList s.toList).isSome

/-- Whether a text begins with another. -/
def startsWith (s start : String) : Bool := start.toList.isPrefixOf s.toList

/-- What is left of a text after a number of characters. -/
def dropChars (n : Nat) (s : String) : String := String.ofList (s.toList.drop n)

/-- A text filled up on the right with blanks to a number of characters. -/
def padRight (width : Nat) (s : String) : String :=
  s ++ String.ofList (List.replicate (width - s.length) ' ')

end Decompiler.Text
