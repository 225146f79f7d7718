import SlotColoring.BlockGraph.Basic
import SlotColoring.BlockGraph.PendingJumps

/-!
# Building a control-flow graph from events

A builder opens a block at every label and after every jump.  A jump to a label that is already
placed gets its edge at once, a jump to a later one when the label is placed.  The graph is
finished when no jump is left waiting; empty blocks are purged then.
-/

namespace SlotColoring

/-- Why a stream of events is no control-flow graph. -/
inductive BuildError where
  | duplicateLabel (l : Label)
  | unresolvedLabels (ls : List Label)
deriving DecidableEq

/-- What a reader is told about the error. -/
def BuildError.message : BuildError → String
  | duplicateLabel l => "label `" ++ l ++ "` is defined more than once"
  | unresolvedLabels ls => "jump to undefined label(s): " ++ ", ".intercalate ls

/-- A control-flow graph under construction, with its newest block first. -/
structure Builder where
  head : Head
  blocks : List Block
  flow : Digraph
  pending : PendingJumps
deriving DecidableEq

namespace Builder

/-- The builder that has seen no event. -/
def start (head : Head) : Builder := ⟨head, [], ∅, ∅⟩

/-- The graph built so far. -/
def graph (b : Builder) : BlockGraph := ⟨b.head, b.blocks.reverse, b.flow⟩

/-- The block that carries a label. -/
def findLabel? (b : Builder) (l : Label) : Option Nat := b.graph.findLabel? l

/-- The number of instructions, which is the id of the next one. -/
def instCount (b : Builder) : Nat := sumOf (fun x => x.body.length) b.blocks

/-- The id of the next block. -/
def nextBlock (b : Builder) : Nat := b.blocks.length

/-- The id of the block that takes the next instruction. -/
def currentId (b : Builder) : Nat := b.blocks.length - 1

/-- Opens a block at the end.  Control falls into it from the block before, unless that ends
in `goto`. -/
def openBlock (b : Builder) (label : Option Label) : Builder :=
  { b with
    blocks := ⟨b.nextBlock, label, []⟩ :: b.blocks
    flow := match b.blocks with
      | [] => b.flow
      | prev :: _ => if prev.endsInGoto then b.flow else b.flow.link prev.id b.nextBlock }

/-- Puts an instruction at the end of the newest block, opening one if there is none. -/
def push (b : Builder) (op : Opcode) : Builder :=
  let b' := if b.blocks.isEmpty then b.openBlock none else b
  { b' with
    blocks := b'.blocks.modifyHead fun cur =>
      { cur with body := cur.body ++ [⟨b.instCount, cur.id, op⟩] } }

/-- Emits a jump and closes the block with it. -/
def addJump (b : Builder) (c : Condition) (target : Label) : Builder :=
  let pushed := b.push (.jump c target)
  let aimed := match b.findLabel? target with
    | some dest => { pushed with flow := pushed.flow.link b.currentId dest }
    | none => { pushed with pending := pushed.pending.record target b.currentId }
  aimed.openBlock none

/-- Emits an instruction. -/
def addInstruction (b : Builder) : Opcode → Builder
  | .jump c target => b.addJump c target
  | op => b.push op

/-- Places a label: opens its block and gives the jumps that waited for it their edges. -/
def addLabel (b : Builder) (l : Label) : Except BuildError Builder :=
  if (b.findLabel? l).isSome then
    .error (.duplicateLabel l)
  else
    let b' := b.openBlock (some l)
    .ok { b' with
      flow := (b.pending.waitingOn l).foldl (fun flow a => flow.link a b.nextBlock) b'.flow
      pending := b.pending.settle l }

/-- Takes an event, if it does not place a label again. -/
def feed (b : Builder) : Event → Except BuildError Builder
  | .emit op => .ok (b.addInstruction op)
  | .label l => b.addLabel l
  | .jump c target => .ok (b.addJump c target)

/-- Feeds events up to the first that is refused. -/
def feedAll (b : Builder) : List Event → Except BuildError Builder
  | [] => .ok b
  | e :: es => match b.feed e with
    | .ok b' => b'.feedAll es
    | .error err => .error err

/-- The finished graph, if every jump has found its label. -/
def finish (b : Builder) : Except BuildError BlockGraph :=
  if b.pending.isEmpty then .ok b.graph.purge
  else .error (.unresolvedLabels b.pending.labels.toList)

end Builder

/-- The control-flow graph of a stream of events. -/
def BlockGraph.build (head : Head) (events : List Event) : Except BuildError BlockGraph :=
  match (Builder.start head).feedAll events with
  | .ok b => b.finish
  | .error err => .error err

end SlotColoring
