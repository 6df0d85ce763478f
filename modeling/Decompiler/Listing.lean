import Decompiler.Fault
import Decompiler.Palette
import Decompiler.Text.Hex
/-!
# Listings

What the program writes is a sequence of pieces: inked text, addresses, labels, indentation, line
ends and the braces of constructs. A listing that fails keeps the pieces written before the failure.
-/

namespace Decompiler

/-- A piece of a listing. -/
inductive Piece where
  | text (ink : Ink) (s : String)
  /-- An address in hexadecimal, with a colon if it stands in front of code. -/
  | address (ink : Ink) (addr : Int) (colon : Bool)
  /-- The label of an address. -/
  | label (ink : Ink) (addr : Int) (name : String) (colon : Bool)
  /-- The address of an instruction that is shown as a comment. -/
  | remark (addr : Int)
  /-- The blanks in front of a line at a depth. -/
  | indent (depth : Int)
  | newline
  /-- The brace that opens a construct. -/
  | opening
  /-- The brace that closes a construct. -/
  | closing
  deriving DecidableEq, Repr

namespace Piece

/-- How a piece is written. -/
def render (color : Bool) : Piece → String
  | text ink s => ink.paint color s
  | address ink addr colon => ink.paint color (Text.hex addr ++ if colon then ": " else "")
  | label ink _ name colon => ink.paint color (name ++ if colon then ":" else "")
  | remark addr => (Ink.role .comment).paint color ("# " ++ Text.hex addr ++ ": ")
  | indent depth => String.ofList (List.replicate (4 * depth.toNat) ' ')
  | newline => "\n"
  | opening => "\x7b"
  | closing => "\x7d"

end Piece

/-- The pieces written so far, and how the writing ended. -/
structure Listing (α : Type) where
  pieces : List Piece
  result : Except Fault α

namespace Listing

variable {α β : Type}

/-- Writes nothing. -/
def done (a : α) : Listing α := ⟨[], .ok a⟩

/-- Writes nothing and fails. -/
def fail (e : Fault) : Listing α := ⟨[], .error e⟩

/-- Goes on after what was written; a failure is final. -/
def andThen (l : Listing α) (f : α → Listing β) : Listing β :=
  match l.result with
  | .ok a => ⟨l.pieces ++ (f a).pieces, (f a).result⟩
  | .error e => ⟨l.pieces, .error e⟩

instance : Monad Listing where
  pure := done
  bind := andThen

/-- An answer that may be a failure. -/
def ask (answer : Except Fault α) : Listing α := ⟨[], answer⟩

def put (p : Piece) : Listing Unit := ⟨[p], .ok ()⟩

/-- Writes uncoloured text. -/
def write (s : String) : Listing Unit := put (.text .plain s)

/-- Writes text in the colour of a role. -/
def ink (r : Role) (s : String) : Listing Unit := put (.text (.role r) s)

/-- Ends the line. -/
def newline : Listing Unit := put .newline

/-- Starts a line at a depth. -/
def indent (depth : Int) : Listing Unit := put (.indent depth)

/-- Writes something only under a condition. -/
def only (b : Bool) (l : Listing Unit) : Listing Unit := if b then l else done ()

/-- Writes something for every member of a list. -/
def each (f : α → Listing Unit) : List α → Listing Unit
  | [] => done ()
  | a :: rest => (f a).andThen fun _ => each f rest

/-- The text of a listing. -/
def render (color : Bool) (l : Listing α) : String :=
  String.join (l.pieces.map (Piece.render color))

end Listing

end Decompiler
