import Decompiler.Flow.LoopNest
/-!
# Drawings of flow graphs

A flow graph as a script for the viewer page: one node per block, with its instructions, and an edge
per way. Loop heads, ends and starts have colours, and of a branch in two the way of the jump is
green.
-/

namespace Decompiler.Graph

/-- A signed number in hexadecimal without a radix mark. -/
def nodeName (addr : Int) : String := "node_" ++ Text.hexSigned 1 addr

/-- A quotation mark inside of the script's text. -/
def quote : String := "\\\""

/-- The end of a line inside of the script's text. -/
def lineEnd : String := "\\\n"

/-- The colour of a block, by its place in the graph. -/
def fillOf (g : Graph) (nest : LoopNest) (addr : Int) : Option String :=
  if addr ∈ nest.starts then some "#FFFCC4"
  else if !g.succs.contains addr then some "#f77"
  else if !g.preds.contains addr then some "#B6FFDD"
  else none

/-- A block. -/
def drawNode (g : Graph) (nest : LoopNest) (addr : Int) (insns : List Insn) : String :=
  let body := String.join
    (insns.map fun i => "0x" ++ Text.hexSigned 1 i.addr ++ ": " ++ i.mnemonic ++ " " ++
      i.opText ++ "\\n")
  let style := match g.fillOf nest addr with
    | some color => " style=" ++ quote ++ "fill:" ++ color ++ quote
    | none => ""
  nodeName addr ++ " [label=" ++ quote ++ body ++ quote ++ style ++ "];" ++ lineEnd

/-- An edge in a colour. -/
def drawWay (source goal : Int) (color : String) : String :=
  nodeName source ++ " -> " ++ nodeName goal ++ " [style=" ++ quote ++ "stroke: " ++ color ++
    "; stroke-width: 3px;" ++ quote ++ " arrowheadStyle=" ++ quote ++ "fill: " ++ color ++ quote ++
    "];" ++ lineEnd

/-- The edges of a block. -/
def drawEdges (source : Int) : List Int → String
  | [next, target] => drawWay source target "#58DA9C" ++ drawWay source next "#f77"
  | next :: _ => nodeName source ++ " -> " ++ nodeName next ++ ";" ++ lineEnd
  | [] => ""

/-- The drawing of a graph. -/
def draw (g : Graph) (nest : LoopNest) : String :=
  let blocks := g.nodes.entries.mergeSort (fun a b => a.1 ≤ b.1)
  "mygraph = \"digraph \x7b" ++ lineEnd ++
    String.join (blocks.map fun b => g.drawNode nest b.1 b.2) ++
    String.join (g.succs.entries.map fun e => drawEdges e.1 e.2) ++
    "\x7d\";\ninputGraph.innerHTML = mygraph;tryDraw();"

end Decompiler.Graph
