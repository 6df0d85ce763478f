/-!
# Colours on the terminal

Every part of a listing has a role, and a palette says in which colour each role is shown. Addresses
that jumps lead to have colours by number. Without colour, text is shown as it is.
-/

namespace Decompiler

/-- What a coloured text is. -/
inductive Role where
  | sectionName
  | keyword
  | localName
  | typeName
  | comment
  | address
  | string
  | symbol
  | transfer
  | note
  deriving DecidableEq, Repr

/-- A terminal colour by its code, which is usually a number, and whether it is shown bold. -/
structure Tone where
  code : String
  bold : Bool
  deriving DecidableEq, Repr

/-- The colours of the roles; a role may be missing. -/
structure Palette where
  tones : List (Role × Tone)
  deriving DecidableEq, Repr

/-- The colour of a text: none, that of a role, or one by number. -/
inductive Ink where
  | plain
  | role (r : Role)
  | number (n : Int)
  deriving DecidableEq, Repr

namespace Tone

/-- A text in this colour, as a terminal takes it. -/
def paint (t : Tone) (text : String) : String :=
  let inner := if t.bold then "\x1b[1m" ++ text ++ "\x1b[0m" else text
  "\x1b[38;5;" ++ t.code ++ "m" ++ inner ++ "\x1b[0m"

end Tone

namespace Role

/-- All roles. -/
def all : List Role :=
  [sectionName, keyword, localName, typeName, comment, address, string, symbol, transfer, note]

/-- The usual colour of a role. -/
def tone : Role → Tone
  | sectionName => ⟨"81", false⟩
  | keyword => ⟨"161", true⟩
  | localName => ⟨"208", true⟩
  | typeName => ⟨"81", false⟩
  | comment => ⟨"242", false⟩
  | address => ⟨"242", false⟩
  | string => ⟨"144", false⟩
  | symbol => ⟨"144", false⟩
  | transfer => ⟨"161", false⟩
  | note => ⟨"38", false⟩

end Role

namespace Palette

/-- The usual colours. -/
def standard : Palette := ⟨Role.all.map fun r => (r, r.tone)⟩

/-- The colour of a role. -/
def tone? (p : Palette) (r : Role) : Option Tone := p.tones.lookup r

end Palette

/-- A text in an ink, with or without colour. -/
def Ink.paint (color : Bool) (ink : Ink) (text : String) : String :=
  if color then
    match ink with
    | .plain => text
    | .role r => r.tone.paint text
    | .number n => Tone.paint ⟨toString n, false⟩ text
  else text

end Decompiler
