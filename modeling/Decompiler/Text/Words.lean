/-!
# Words of a command line

A command line is split into words at blanks. Quotes of either kind keep blanks inside a word, and a
backslash takes the next character as it is; between double quotes it does so only for a double
quote or another backslash. A quote that is not closed, or a backslash at the very end, makes the
line unreadable.
-/

namespace Decompiler.Text

/-- Where the splitter stands: between words, inside one, inside a quotation, or after a
backslash. -/
inductive WordState where
  | between
  | inWord
  | quoted (mark : Char)
  /-- After a backslash; inside a double quotation if the flag is set. -/
  | escaped (inQuotes : Bool)
  deriving DecidableEq, Repr

/-- The characters between words. -/
def isWordBreak (c : Char) : Bool := c = ' ' || c = '\t' || c = '\r' || c = '\n'

/-- A word in the making: its characters, reversed, and whether a quotation made it a word even if
empty. -/
structure Word where
  chars : List Char
  wasQuoted : Bool

/-- No word yet. -/
def Word.start : Word := ⟨[], false⟩

/-- Adds a character to the word. -/
def Word.push (w : Word) (c : Char) : Word := { w with chars := c :: w.chars }

/-- The finished word, if there is one, in front of the words after it. -/
def Word.finish (w : Word) (rest : List String) : List String :=
  if w.chars.isEmpty && !w.wasQuoted then rest else String.ofList w.chars.reverse :: rest

/-- Splits the rest of a line, given where the splitter stands and the word in the making. -/
def wordsFrom (st : WordState) (w : Word) : List Char → Option (List String)
  | [] =>
    match st with
    | .quoted _ => none
    | .escaped _ => none
    | .between | .inWord => some (w.finish [])
  | c :: rest =>
    match st with
    | .between | .inWord =>
      if isWordBreak c then (wordsFrom .between Word.start rest).map w.finish
      else if c = '\\' then wordsFrom (.escaped false) w rest
      else if c = '\'' || c = '"' then wordsFrom (.quoted c) { w with wasQuoted := true } rest
      else wordsFrom .inWord (w.push c) rest
    | .quoted mark =>
      if c = mark then wordsFrom .inWord w rest
      else if c = '\\' && mark = '"' then wordsFrom (.escaped true) w rest
      else wordsFrom (.quoted mark) (w.push c) rest
    | .escaped inQuotes =>
      if inQuotes then
        if c = '\\' || c = '"' then wordsFrom (.quoted '"') (w.push c) rest
        else wordsFrom (.quoted '"') ((w.push '\\').push c) rest
      else wordsFrom .inWord (w.push c) rest

/-- The words of a line, or nothing if it cannot be read. -/
def words? (line : String) : Option (List String) := wordsFrom .between Word.start line.toList

end Decompiler.Text
