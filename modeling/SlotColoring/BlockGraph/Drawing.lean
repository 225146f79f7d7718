import SlotColoring.BlockGraph.Basic
import SlotColoring.Text.Quoted

/-!
# A control-flow graph as a Graphviz drawing

The drawing has a line for each block, then a line for each edge, in program order.
-/

namespace SlotColoring.BlockGraph

open Text

/-- What stands in the box of a block: its name and its instructions, each line ended by the
escape for a line that is flush left. -/
def boxText (b : Block) : String :=
  escaped b.name ++ ":\\l"
    ++ String.join (b.body.map fun i => "  " ++ escaped i.opcode.text ++ "\\l")

/-- The line that draws a block. -/
def boxLine (b : Block) : String :=
  "    b" ++ toString b.id ++ " [shape=box, label=\"" ++ boxText b ++ "\"];"

/-- The block ends in a jump to the label of the block with id `s`. -/
def jumpsTo (g : BlockGraph) (b : Block) (s : Nat) : Bool :=
  match b.lastOpcode?.bind Opcode.target?, (g.block? s).bind Block.label with
  | some t, some l => t == l
  | _, _ => false

/-- The line that draws an edge. -/
def edgeLine (g : BlockGraph) (b : Block) (s : Nat) : String :=
  "    b" ++ toString b.id ++ " -> b" ++ toString s ++ " [label=\""
    ++ (if g.jumpsTo b s then "jump" else "fallthrough") ++ "\"];"

/-- The lines of the drawing. -/
def drawing (g : BlockGraph) : List String :=
  ("digraph \"" ++ escaped g.head.className ++ "\" \x7b")
    :: g.blocks.map boxLine
    ++ g.blocks.flatMap (fun b => (g.succs b.id).toList.map (g.edgeLine b))
    ++ ["\x7d"]

end SlotColoring.BlockGraph
