import SlotColoring.BlockGraph.Basic
import SlotColoring.Text.Delimited

/-!
# Instruction-level flow graphs

A flow graph has one node for each instruction, in program order.  Inside a block control passes
from node to node; from the last node of a block it passes to the first node of each block that
follows, looking through blocks without instructions.
-/

namespace SlotColoring

/-- An instruction with the slot it writes, the slot it reads and the nodes that may be next. -/
structure FlowNode where
  inst : Nat
  writes : Option Slot
  reads : Option Slot
  succs : OrdSet Nat
deriving DecidableEq

/-- The instructions of a method, numbered in program order. -/
structure FlowGraph where
  nodes : Array FlowNode
deriving DecidableEq

namespace FlowGraph

/-- The number of nodes. -/
def size (g : FlowGraph) : Nat := g.nodes.size

/-- The nodes that may follow a node. -/
def succs (g : FlowGraph) (i : Nat) : OrdSet Nat := (g.nodes[i]?.map FlowNode.succs).getD ∅

/-- The slot that a node writes. -/
def writes? (g : FlowGraph) (i : Nat) : Option Slot := g.nodes[i]?.bind FlowNode.writes

/-- The slot that a node reads. -/
def reads? (g : FlowGraph) (i : Nat) : Option Slot := g.nodes[i]?.bind FlowNode.reads

/-- The nodes that a node may follow. -/
def preds (g : FlowGraph) (i : Nat) : OrdSet Nat :=
  .ofList ((List.range g.size).filter fun j => i ∈ g.succs j)

/-- The number of edges. -/
def edgeCount (g : FlowGraph) : Nat := sumOf (fun n => n.succs.size) g.nodes.toList

/-- The nodes where control leaves the method. -/
def exits (g : FlowGraph) : List Nat :=
  (List.range g.size).filter fun i => (g.succs i).toList.isEmpty

end FlowGraph

namespace BlockGraph

/-- The number of the first node of a block, where `n` nodes come before the blocks given. -/
def firstNode? (id : Nat) : List Block → Nat → Option Nat
  | [], _ => none
  | b :: bs, n =>
    if b.id = id then if b.body.isEmpty then none else some n
    else firstNode? id bs (n + b.body.length)

/-- The edges that leave blocks without instructions. -/
def hollowEdges (g : BlockGraph) : List (Nat × Nat) :=
  let hollow := (g.blocks.filter fun b => b.body.isEmpty).map Block.id
  g.flow.edges.filter fun e => e.1 ∈ hollow

/-- The blocks that control comes to after a block, passing along the edges that leave blocks
without instructions. -/
def landings (g : BlockGraph) (hollow : List (Nat × Nat)) (b : Block) : OrdSet Nat :=
  Digraph.closure hollow (g.succs b.id).toList ∅

/-- The nodes that may follow the last node of a block. -/
def nodesAfter (g : BlockGraph) (hollow : List (Nat × Nat)) (b : Block) : OrdSet Nat :=
  .ofList ((g.landings hollow b).toList.filterMap fun id => firstNode? id g.blocks 0)

/-- The nodes of a block's instructions, the first being number `n`. -/
def bodyNodes (after : OrdSet Nat) : List Instruction → Nat → List FlowNode
  | [], _ => []
  | [i], _ => [⟨i.id, i.opcode.writes?, i.opcode.reads?, after⟩]
  | i :: j :: is, n =>
    ⟨i.id, i.opcode.writes?, i.opcode.reads?, .singleton (n + 1)⟩ :: bodyNodes after (j :: is) (n + 1)

/-- The nodes of some blocks in program order, the first being number `n`. -/
def nodesFrom (g : BlockGraph) (hollow : List (Nat × Nat)) : List Block → Nat → List FlowNode
  | [], _ => []
  | b :: bs, n =>
    bodyNodes (g.nodesAfter hollow b) b.body n ++ nodesFrom g hollow bs (n + b.body.length)

/-- The instruction-level flow graph of a control-flow graph. -/
def flowGraph (g : BlockGraph) : FlowGraph := ⟨(g.nodesFrom g.hollowEdges g.blocks 0).toArray⟩

end BlockGraph

end SlotColoring
