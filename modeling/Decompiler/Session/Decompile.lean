import Decompiler.Flow.Blocks
import Decompiler.Flow.Discovery
import Decompiler.Idiom.Pass
import Decompiler.Print.Tree
import Decompiler.Session.Drawing
import Decompiler.Session.EditorColors
import Decompiler.Session.Entry
import Decompiler.Tree.Gotos
import Decompiler.Tree.Structuring
/-!
# Decompiling a function

From the entry address to the printed function: the flow graph and its loops, the tree, the passes
of the architecture, the listing.
-/

namespace Decompiler.Act

/-- Names the stubs of imported functions, in the formats that have them. -/
def nameStubs : Act Unit := do
  if (← program).image.isPe then
    let count ← decode Program.nameStubs
    trace ("Found " ++ toString count ++ " imported symbols (PE) in " ++ elapsed)

/-- Finds the flow graph of the code at the entry; there is none if nothing can be decoded there. -/
def discoverGraph : Act (Option Graph) := do
  match ← decode (Graph.discover (← get).marks.entry) with
  | none => return none
  | some g =>
    nameStubs
    trace ("Graph built in " ++ elapsed)
    return some g

/-- Joins the blocks of a graph and finds its loops. -/
def prepareGraph (g : Graph) : Act (Graph × LoopNest) := do
  let g ← ask (g.blocks (← program).arch)
  trace ("Graph simplified in " ++ elapsed)
  let nest ← ask g.loopNest
  trace ("Exploration: found " ++ toString nest.tables.all.size ++ " loop(s) in " ++ elapsed)
  modify fun s => { s with graph := some g, nest := some nest }
  return (g, nest)

/-- Structures a graph, and puts in the gotos that are needed and no others. -/
def structureGraph (g : Graph) (nest : LoopNest) : Act (List Node) := do
  let s ← get
  let subject : Structuring.Subject := ⟨(← program).arch, g, nest, s.options.furtherConditions⟩
  let draft ← do
    match Structuring.build subject (Build.start s.marks.entry s.marks.labels ∅) with
    | .ok _ b => do
      mark fun m => { m with labels := b.labels }
      pure b.draft
    | .error e b => do
      mark fun m => { m with labels := b.labels }
      fail e
  let tree ← ask (bringGotosInLine g.uncondJumps g.succs draft.toTree)
  trace ("Ast generated in " ++ elapsed)
  return tree

/-- Runs passes over a tree. The changes made before a failure stay. -/
def runPasses (succs : Edges) (passes : List Pass) (tree : List Node) : Act (List Node) := do
  let s ← get
  let p ← program
  let r := Pass.runAll p.arch p.symbols succs ⟨tree, s.marks, s.notes⟩ passes
  modify fun s => { s with marks := r.value.marks, notes := r.value.notes }
  ask (r.map (·.tree)).result

/-- The name of the files that are written for an editor. -/
def editorBase : Act String := do
  let s ← get
  return Path.baseName (s.fileName.getD "") ++ "_" ++ s.entryName.getD ""

/-- Writes the colours for an editor. -/
def writeEditorColors (base : String) : Act Unit := do
  let (text, fault) := EditorColors.rulesFile (← get).marks
  writeFile (base ++ ".vim") text
  match fault with
  | some e => fail e
  | none => pure ()

/-- Sends what is printed to a file. -/
def redirectTo (path : String) : Act Unit := do
  writeFile path ""
  modify fun s => { s with console := { s.console with redirect := some path } }

/-- Shows no colours from here on. -/
def dropColor : Act Unit := modify fun s => { s with options := { s.options with color := false } }

/-- Tells how to open the files for an editor. -/
def announceEditor (base : String) : Act Unit :=
  report ("Run :  vim " ++ base ++ ".rev -S " ++ base ++ ".vim")

/-- Builds the tree of the function at the entry from its graph. -/
def buildTree (g : Graph) (nest : LoopNest) : Act (List Node) := do
  let tree ← structureGraph g nest
  let tree ← runPasses g.succs (← program).arch.passes tree
  trace ("Functions for processing ast in " ++ elapsed)
  if (← get).options.color then runPasses g.succs [.tintTargets] tree else return tree

/-- Decompiles the function at the entry and prints it; gives its tree, if code is there. -/
def decompile : Act (Option (List Node)) := do
  let found ← discoverGraph
  modify fun s => { s with graph := found }
  match found with
  | none =>
    error "capstone can't disassemble here"
    return none
  | some g =>
    let (g, nest) ← prepareGraph g
    if (← get).drawsGraph then modify fun s => { s with drawing := some (g.draw nest) }
    let tree ← tryCatch (some <$> buildTree g nest) fun e => do
      match e with
      | .fault (.strayConditional addr) =>
        error ("can't have a ifelse here     " ++ Text.hexSigned 1 addr)
        let _ ← giveUp
        return none
      | .fault .onlySpurious =>
        printLine "errorD: this is a bug, please report"
        die
      | e => throw e
    match tree with
    | none => return none
    | some tree =>
      let base ← editorBase
      let forEditor := (← get).forEditor
      if forEditor then
        let _ ← runPasses g.succs [.tintTargets] tree
        dropColor
        writeEditorColors base
        redirectTo (base ++ ".rev")
      listScene fun s => s.function s.marks.entry tree
      if forEditor then announceEditor base
      return some tree

end Decompiler.Act
