import SlotColoring.BlockGraph.Basic
import SlotColoring.Text.Delimited

/-!
# The text of a control-flow graph
-/

namespace SlotColoring.BlockGraph

open Text

/-- The names of some blocks in ascending order of their ids. -/
def names (g : BlockGraph) (ids : OrdSet Nat) : String := bracketed (ids.toList.map g.nameOf)

/-- A block with its neighbours and instructions. -/
def blockText (g : BlockGraph) (b : Block) : String :=
  indent 1 ++ "Block " ++ b.name ++ "\n"
    ++ indent 2 ++ "preds: " ++ g.names (g.preds b.id) ++ "\n"
    ++ indent 2 ++ "succs: " ++ g.names (g.succs b.id) ++ "\n"
    ++ indent 2 ++ "body:\n"
    ++ String.join (b.body.map fun i => indent 3 ++ i.opcode.text ++ "\n")

/-- The graph as it is printed. -/
def text (g : BlockGraph) : String :=
  "Source: " ++ g.head.source ++ "\n"
    ++ "Class: " ++ g.head.className ++ "\n"
    ++ "Limits: stack " ++ toString g.head.stackSize ++ ", locals " ++ toString g.head.locals
    ++ "\n\n"
    ++ "Blocks:\n"
    ++ String.join (g.blocks.map fun b => g.blockText b ++ "\n")

end SlotColoring.BlockGraph
