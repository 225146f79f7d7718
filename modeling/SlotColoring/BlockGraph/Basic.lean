import SlotColoring.Digraph
import SlotColoring.Opcode
import SlotColoring.SumOf

/-!
# Control-flow graphs of basic blocks

A graph lists its blocks in program order and says by their ids where control may pass.  A block
holds its instructions; ids count blocks and instructions in the order in which they were made.
-/

namespace SlotColoring

/-- What is known of the method's frame. -/
structure Head where
  source : String
  className : String
  stackSize : Nat
  locals : Nat
deriving DecidableEq

/-- The frame of a method of which nothing is known. -/
def Head.blank : Head := ⟨"", "", 0, 0⟩

/-- An instruction in its block. -/
structure Instruction where
  id : Nat
  block : Nat
  opcode : Opcode
deriving DecidableEq

/-- Instructions that control passes through from first to last. -/
structure Block where
  id : Nat
  label : Option Label
  body : List Instruction
deriving DecidableEq

namespace Block

/-- The label, or the id for a block without one. -/
def name (b : Block) : String := b.label.getD ("#" ++ toString b.id)

/-- Nothing names the block and nothing happens in it. -/
def isRemovable (b : Block) : Bool := b.label.isNone && b.body.isEmpty

/-- The opcode of the last instruction. -/
def lastOpcode? (b : Block) : Option Opcode := b.body.getLast?.map Instruction.opcode

/-- Control does not pass on to the next block in program order. -/
def endsInGoto (b : Block) : Bool := b.lastOpcode?.any Opcode.isGoto

end Block

/-- Basic blocks in program order and the edges between them. -/
structure BlockGraph where
  head : Head
  blocks : List Block
  flow : Digraph
deriving DecidableEq

namespace BlockGraph

/-- The instructions in program order. -/
def instructions (g : BlockGraph) : List Instruction := g.blocks.flatMap Block.body

/-- The number of instructions. -/
def instCount (g : BlockGraph) : Nat := sumOf (fun b => b.body.length) g.blocks

/-- The block where control starts. -/
def entry? (g : BlockGraph) : Option Nat := g.blocks.head?.map Block.id

/-- The block that was opened last. -/
def last? (g : BlockGraph) : Option Block := g.blocks.getLast?

/-- The block with an id. -/
def block? (g : BlockGraph) (id : Nat) : Option Block := g.blocks.find? fun b => b.id == id

/-- The block that carries a label. -/
def findLabel? (g : BlockGraph) (l : Label) : Option Nat :=
  (g.blocks.find? fun b => b.label == some l).map Block.id

/-- The name of the block with an id. -/
def nameOf (g : BlockGraph) (id : Nat) : String :=
  ((g.block? id).map Block.name).getD ("#" ++ toString id)

/-- The blocks that control may go to from a block. -/
def succs (g : BlockGraph) (id : Nat) : OrdSet Nat := g.flow.succs id

/-- The blocks that control may come from. -/
def preds (g : BlockGraph) (id : Nat) : OrdSet Nat := g.flow.preds id

/-- The blocks that control may come to after leaving a block. -/
def reachableFrom (g : BlockGraph) (id : Nat) : OrdSet Nat := g.flow.reachableFrom id

/-- The graph without its removable blocks: control passes from what came before one straight to
what came after it. -/
def purge (g : BlockGraph) : BlockGraph :=
  { g with
    blocks := g.blocks.filter fun b => !b.isRemovable
    flow := ((g.blocks.filter Block.isRemovable).map Block.id).foldl Digraph.contract g.flow }

end BlockGraph

end SlotColoring
