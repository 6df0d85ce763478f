import Decompiler.Listing
import Decompiler.Value
/-!
# Showing values

Lists, sets, tuples and tables of numbers, written out for someone who follows an analysis. Numbers
are in hexadecimal. A part that is no number where one is needed, and a value that is not of the
kind asked for, stop the writing.
-/

namespace Decompiler.Value

open Listing

/-- A number in hexadecimal; a truth value counts as one or zero. -/
def digits? : Value → Option String
  | number n => some (Text.hexSigned 1 n)
  | truth b => some (if b then "1" else "0")
  | _ => none

/-- Writes a number between two texts. A tuple of one number counts as the number. -/
def hexBetween (v : Value) (front back : String) : Listing Unit :=
  let digits := match v with
    | tuple [w] => w.digits?
    | w => w.digits?
  match digits with
  | some d => write (front ++ d ++ back)
  | none => fail .notAnInteger

/-- Writes a closing bracket and the text that ends a value. -/
def close (bracket : String) (ending : Value) : Listing Unit :=
  match ending with
  | text e => write (bracket ++ e)
  | _ => fail .wrongKind

/-- The usual end of a value. -/
def lineEnd : Value := text "\n"

mutual

/-- Writes a tuple. -/
def showTuple : List Value → Listing Unit
  | [] => write ") "
  | set s :: rest => do
    write " \x7b"
    showSet lineEnd s
    showTuple rest
  | v :: rest => do
    v.hexBetween " " ""
    showTuple rest

/-- Writes a set, after its opening brace. -/
def showSet (ending : Value) : List Value → Listing Unit
  | [] => close " \x7d" ending
  | tuple t :: rest => do
    write "("
    showTuple t
    showSet ending rest
  | v :: rest => do
    v.hexBetween " " ""
    showSet ending rest

end

/-- Writes a key of a table. -/
def showKey : Value → Listing Unit
  | text s => write (s ++ ": ")
  | tuple t => do
    write "("
    showTuple t
  | v => v.hexBetween "" ": "

mutual

/-- Writes the entries of a table, after its opening bracket. -/
def showTable (ending : Value) : List Value → List Value → Listing Unit
  | k :: keys, v :: values => do
    showKey k
    showEntry v
    showTable ending keys values
  | _, _ => close "]" ending

/-- Writes a value in a table. -/
def showEntry : Value → Listing Unit
  | list l => do
    write "["
    showList lineEnd l
  | tuple t => do
    write "("
    showTuple t
    newline
  | table ks vs => do
    write "[\n"
    showTable lineEnd ks vs
  | set s => do
    write "\x7b"
    showSet lineEnd s
  | text s => write (s ++ ": \n")
  | v => v.hexBetween "0x" ", "

/-- Writes the elements of a list, after its opening bracket. -/
def showList (ending : Value) : List Value → Listing Unit
  | [] => close "]" ending
  | [v] => do
    showElement "" "" v
    close "]" ending
  | v :: rest => do
    showElement ",\n " ", " v
    showList ending rest

/-- Writes an element of a list; `gap` follows a list or table, and `comma` a number. -/
def showElement (gap comma : String) : Value → Listing Unit
  | list l => do
    write "["
    showList (text "") l
    write gap
  | table ks vs => do
    write "[\n"
    showTable lineEnd ks vs
    write gap
  | set s => do
    write "\x7b"
    showSet lineEnd s
  | tuple t => do
    write "("
    showTuple t
  | v => v.hexBetween "0x" comma

end

/-! ## A value as one of a kind -/

/-- Writes a value as a list. Its parts need places. -/
def writeList (v ending : Value) : Listing Unit := do
  write "["
  match v.row? with
  | some l => showList ending l
  | none => fail .wrongKind

/-- Writes a value as a tuple. -/
def writeTuple (v : Value) : Listing Unit := do
  write "("
  match v.parts? with
  | some l => showTuple l
  | none => fail .wrongKind

/-- Writes a value as a set. -/
def writeSet (v ending : Value) : Listing Unit := do
  write "\x7b"
  match v.parts? with
  | some l => showSet ending l
  | none => fail .wrongKind

/-- Writes a value as a table. Of a value that is none, every part is taken for the place of
another. -/
def writeTable (v ending : Value) : Listing Unit := do
  write "[\n"
  match v with
  | table ks vs => showTable ending ks vs
  | _ =>
    match v.parts? with
    | none => fail .wrongKind
    | some ks =>
      each
        (fun k => do
          showKey k
          match v.partAt k with
          | .ok w => showEntry w
          | .error e => fail e)
        ks
      close "]" ending

/-- Writes a single text or number. It ends as the caller says; without an ending it ends the
line. -/
def writeSingle (s : String) (ending : Value) : Listing Unit :=
  match ending with
  | text e => write (s ++ e)
  | nothing => write (s ++ "\n")
  | _ => fail .wrongKind

/-- Writes a value of any kind. Only texts and numbers end as the caller says, and values without a
form are left out. -/
def writeAny (v ending : Value) : Listing Unit :=
  match v with
  | text s => writeSingle s ending
  | number n => writeSingle (toString n) ending
  | truth b => writeSingle (if b then "True" else "False") ending
  | real _ => done ()
  | nothing => done ()
  | list _ => v.writeList lineEnd
  | tuple _ => v.writeTuple
  | set _ => v.writeSet lineEnd
  | table _ _ => v.writeTable lineEnd

end Decompiler.Value
