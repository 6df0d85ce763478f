import Decompiler.Print.X86
import Decompiler.Print.Arm
import Decompiler.Print.Mips
/-!
# Pseudo code of functions

Writes a tree as nested constructs. An `if` whose only content is in its else part is turned round,
and an else part that holds nothing but another `if` becomes an `else if`.
-/

namespace Decompiler.Scene

open Listing

def arch (s : Scene) : Arch := s.program.arch

def insn (s : Scene) (i : Insn) (depth : Int) : Listing Unit :=
  match s.arch with
  | .x86 => X86.insn s i depth
  | .arm => Arm.insn s i depth
  | .mips => Mips.insn s i depth

/-- Writes an instruction as a comment line. -/
def remark (s : Scene) (i : Insn) (depth : Int) : Listing Unit :=
  match s.arch with
  | .x86 => X86.remark s i depth
  | .arm => Arm.remark s i depth
  | .mips => Mips.remark s i depth

/-- Writes an operand; tells whether it looks different from the assembly text. -/
def operand (s : Scene) (i : Insn) (k : Int) (inHex deref : Bool) : Listing (Option Bool) :=
  match s.arch with
  | .x86 => X86.operand s i k inHex deref
  | .arm => Arm.operand s i k inHex deref
  | .mips => Mips.operand s i k inHex deref

/-- Writes a condition, together with the comparison that it tests if that is known. -/
def condition (s : Scene) (cond : Option String) (fused : Option Insn) : Listing Unit :=
  match s.arch with
  | .x86 => X86.condition s cond fused
  | .arm => Arm.condition s cond fused
  | .mips => Mips.condition s cond fused

/-- Writes a member of a block. -/
def item (s : Scene) (it : Item) (depth : Int) : Listing Unit :=
  match it with
  | .insn i => s.insn i depth
  | .gap => done ()
  | .pseudo text parts => Mips.pseudo s text parts depth

def block (s : Scene) (items : List Item) (depth : Int) : Listing Unit :=
  each (s.item · depth) items

/-- Writes the comparison and the jump of a condition as comments; without comments, only their
addresses, if a jump leads there. -/
def jumpRemarks (s : Scene) (jump fused : Option Insn) (depth : Int) : Listing Unit :=
  let one (i : Insn) : Listing Unit :=
    if s.options.comments then s.remark i depth
    else if s.marks.tints.contains i.addr then s.address i.addr depth true
    else done ()
  each one (fused.toList ++ jump.toList)

/-- Writes the instruction in the delay slot of a jump. -/
def delaySlot (s : Scene) (slot : Option Insn) (depth : Int) : Listing Unit :=
  each (s.insn · depth) slot.toList

/-- Whether a group of conditional instructions is written on one line. Only a block has a
length. -/
def fitsOnLine (body : List Node) (fused : Option Insn) : Except Fault (Option Item) :=
  match fused, body with
  | none, [.block [it]] => .ok (some it)
  | none, [.block _] => .ok none
  | none, [_] => .error .notABlock
  | _, _ => .ok none

/-- Writes an else part in braces. -/
def elseBlock (depth : Int) (body : Listing Unit) : Listing Unit := do
  ink .keyword " else "
  put .opening
  newline
  body
  indent depth
  put .closing
  newline

/-- Whether a node is a block of nothing but a comparison. -/
def isLoneCmp (s : Scene) : Node → Bool
  | .block [.insn i] => s.arch.isCmp i
  | _ => false

mutual

/-- Writes a node; `chained` tells whether it goes on an `if` as its else part. -/
def node (s : Scene) (depth : Int) (chained : Bool) : Node → Listing Unit
  | .block items => s.block items depth
  | .goto target _ => do
    indent depth
    ink .keyword "goto "
    s.labelOrAddress target 0 false
    newline
  | .comment text => only s.options.comments (commentLine ("# " ++ text) depth)
  | .ifGoto jump cond target slot fused => do
    s.jumpRemarks (some jump) fused depth
    s.delaySlot slot depth
    indent depth
    ink .keyword "if "
    s.condition cond fused
    ink .keyword "  goto "
    s.labelOrAddress target 0 false
    newline
  | .andIf jump cond _ slot fused => do
    s.jumpRemarks (some jump) fused depth
    s.delaySlot slot depth
    indent depth
    ink .keyword "and "
    ink .keyword "if "
    s.condition cond fused
    newline
  | .ifCond cond body fused => do
    s.jumpRemarks none fused depth
    indent depth
    ink .keyword "if "
    s.condition cond fused
    match ← ask (fitsOnLine body fused) with
    | some it =>
      write " :  "
      s.item it 0
    | none =>
      write " "
      put .opening
      newline
      s.branch (depth + 1) body
      indent depth
      put .closing
      newline
  | .ifElse jump _ _ next other slot fused => do
    s.jumpRemarks (some jump) fused depth
    s.delaySlot slot depth
    indent depth
    ink .keyword (if chained then "else if " else "if ")
    if next.isEmpty then
      s.condition (some (s.arch.condOf jump)) fused
      write " "
      put .opening
      newline
      s.branch (depth + 1) other
      indent depth
      put .closing
      newline
    else
      s.condition (s.arch.invertedCond jump) fused
      write " "
      put .opening
      newline
      s.branch (depth + 1) next
      indent depth
      put .closing
      match other with
      | [] => newline
      | [n] =>
        if n.isIfElse then
          newline
          s.node depth true n
        else elseBlock depth (s.node (depth + 1) false n)
      | [b, n] =>
        -- The comparison itself is not written then.
        if s.isLoneCmp b && n.isIfElse then
          newline
          s.node depth true n
        else
          elseBlock depth do
            s.node (depth + 1) false b
            s.node (depth + 1) false n
      | nodes => elseBlock depth (s.branch (depth + 1) nodes)
  | .loop endless _ body => do
    indent depth
    if endless then
      ink .keyword "for"
      write " (;;) "
    else
      ink .keyword "loop"
      write " "
    put .opening
    newline
    s.branch (depth + 1) body
    indent depth
    put .closing
    newline

def branch (s : Scene) (depth : Int) : List Node → Listing Unit
  | [] => done ()
  | n :: rest => do
    s.node depth false n
    s.branch depth rest

end

/-- Writes the types of the local variables. -/
def variableTypes (s : Scene) : Listing Unit :=
  each
    (fun v => do
      indent 1
      ink .typeName ("int" ++ toString (v.2 * 8) ++ "_t ")
      ink .localName v.1
      newline)
    (s.marks.locals.names.zip s.marks.locals.sizes)

/-- Writes a function: its title, its variables and its code. -/
def function (s : Scene) (entry : Int) (tree : List Node) : Listing Unit := do
  ink .keyword "function "
  write (s.nameOrHex entry)
  match s.program.image.sectionOf? entry with
  | some (sec, _) =>
    write " ("
    ink .sectionName sec
    write ") "
  | none => write " "
  put .opening
  newline
  s.variableTypes
  s.branch 1 tree
  put .closing
  newline

end Decompiler.Scene
