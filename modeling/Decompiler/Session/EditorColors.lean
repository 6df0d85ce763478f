import Decompiler.Marks
import Decompiler.Text.Hex
import Decompiler.Fault
/-!
# Colours for an editor

A syntax file that shows a listing in an editor with the colours that it has on the terminal: fixed
rules for keywords, addresses and comments, and a rule for every coloured address.
-/

namespace Decompiler.EditorColors

/-- The sixteen basic colours of a terminal. -/
def basicColors : List String :=
  ["000000", "800000", "008000", "808000", "000080", "800080", "008080", "c0c0c0",
   "808080", "ff0000", "00ff00", "ffff00", "0000ff", "ff00ff", "00ffff", "ffffff"]

/-- A level of one of the primary colours in the colour cube, from 0 to 5. -/
def cubeLevel (n : Nat) : Nat := if n = 0 then 0 else 55 + 40 * n

/-- Red, green and blue of a terminal colour in hexadecimal: the basic colours, the colour cube, the
greys. -/
def rgb? (n : Int) : Option String :=
  let byte (k : Nat) : String := Text.zeroPad 2 (Text.hexDigits k)
  if n < 0 || 256 ≤ n then none
  else
    let k := n.toNat
    if k < 16 then basicColors[k]?
    else if k < 232 then
      let c := k - 16
      some (byte (cubeLevel (c / 36)) ++ byte (cubeLevel (c / 6 % 6)) ++ byte (cubeLevel (c % 6)))
    else
      let grey := byte (8 + 10 * (k - 232))
      some (grey ++ grey ++ grey)

/-- The rules that do not depend on the listing. -/
def fixedRules : String :=
  let margin := "        "
  String.join
    (([""] ++
      ["syn keyword RevKeywords infiniteloop function goto if else loop and",
       "syn keyword RevTypes int8_t int16_t int32_t int64_t"].map (margin ++ ·) ++
      [""] ++
      ["syn match RevAddr \"0x[0-9a-f]\\+:\"",
       "syn match RevComment \"#.\\+$\"",
       "syn match RevInternComment \";.\\+$\"",
       "syn match RevVar \"var[a-z0-9A-Z_]\\+\"",
       "syn match RevRetCall \"ret\\|call\""].map (margin ++ ·) ++
      [""] ++
      ["syn match RevString \"<[a-zA-Z_@]\\+>\"",
       "syn match RevString \"\\\".\\+\\\"\"",
       "syn match RevString \"'.\\+'\""].map (margin ++ ·) ++
      [""] ++
      ["hi RevKeywords  ctermfg=161  cterm=bold  gui=bold  guifg=#d7005f",
       "hi RevTypes  ctermfg=81  guifg=#5fd7ff",
       "hi RevAddr  ctermfg=242  guifg=#6c6c6c",
       "hi RevComment  ctermfg=242  guifg=#6c6c6c",
       "hi RevInternComment  ctermfg=38  guifg=#00afd7",
       "hi RevString  ctermfg=144  guifg=#afaf87",
       "hi RevVar  ctermfg=208 cterm=bold  gui=bold  guifg=#ff8700",
       "hi RevRetCall  ctermfg=161  guifg=#d7005f"].map (margin ++ ·) ++
      [""]).map (· ++ "\n")) ++ margin

/-- The rule that finds a coloured address. -/
def matchRule (k : Nat) (addr : Int) : String :=
  "syn match RevAddr_" ++ toString k ++ " \"0x" ++ Text.hexSigned 1 addr ++
    ":\\?\" containedin=RevComment\n"

/-- The rules for coloured addresses, numbered from `k`. A colour outside of the palette stops them
after the rule that finds its address. -/
def addressRules (k : Nat) : List (Int × Int) → String × Option Fault
  | [] => ("", none)
  | (addr, color) :: rest =>
    match rgb? color with
    | none => (matchRule k addr, some (.unknownColor color))
    | some code =>
      let (text, fault) := addressRules (k + 1) rest
      (matchRule k addr ++ "hi RevAddr_" ++ toString k ++ " ctermfg=" ++ toString color ++
        "  guifg=#" ++ code ++ "\n" ++ text, fault)

/-- The syntax file for some marks, up to the failure if there is one. -/
def rulesFile (m : Marks) : String × Option Fault :=
  let (text, fault) := addressRules 1 m.tints.entries
  (fixedRules ++ text, fault)

end Decompiler.EditorColors
