import SlotColoring.Compile
import SlotColoring.FlowGraph.Session

/-!
# The journal of a compilation

Each stage reports what it did.  The reports of a stage that fails are those of the steps before
the failure.
-/

namespace SlotColoring

/-- How much a report matters. -/
inductive Level where
  | info
  | debug
  | trace
  | warn
deriving DecidableEq

namespace Level

def name : Level → String
  | info => "INFO"
  | debug => "DEBUG"
  | trace => "TRACE"
  | warn => "WARN"

/-- Whether reports of a level are shown to the user, who may have asked for more of them. -/
def isShown (more : Bool) : Level → Bool
  | info => true
  | warn => true
  | debug => more
  | trace => false

end Level

/-- A report. -/
inductive Report where
  | loweringStarted (className : String)
  | stackDepth (className : String) (depth : Nat)
  | listingRead (className : String) (events names : Nat)
  | jumpResolved (target : Label)
  | blockPurged (id preds succs : Nat)
  | graphFinished (className : String) (blocks purged instructions : Nat)
  | allocationStarted (className : String)
  | flowGraphMade (nodes edges : Nat)
  | livenessConverged (passes : Nat)
  | interferenceMade (vertices edges : Nat)
  | registerChosen (name : String) (slot : Slot) (color : Nat)
  | allocationDone (names registers : Nat)
  | fileWritten (path : String)
  | fileNotWritten (path reason : String)

namespace Report

/-- How much a kind of report matters. -/
def level : Report → Level
  | loweringStarted .. => .info
  | stackDepth .. => .debug
  | listingRead .. => .debug
  | jumpResolved .. => .trace
  | blockPurged .. => .trace
  | graphFinished .. => .debug
  | allocationStarted .. => .info
  | flowGraphMade .. => .debug
  | livenessConverged .. => .debug
  | interferenceMade .. => .debug
  | registerChosen .. => .trace
  | allocationDone .. => .info
  | fileWritten .. => .info
  | fileNotWritten .. => .warn

/-- The report as it is printed. -/
def text : Report → String
  | loweringStarted c => "lowering `" ++ c ++ "` started"
  | stackDepth c depth => "`" ++ c ++ "`: max stack depth " ++ toString depth
  | listingRead c events names =>
    "listing `" ++ c ++ "`: " ++ toString events ++ " events, " ++ toString names
      ++ " variables"
  | jumpResolved target => "resolved forward jump to `" ++ target ++ "`"
  | blockPurged id preds succs =>
    "purged empty block #" ++ toString id ++ " (" ++ toString preds ++ " preds, "
      ++ toString succs ++ " succs)"
  | graphFinished c blocks purged instructions =>
    "cfg `" ++ c ++ "`: " ++ toString blocks ++ " blocks (" ++ toString purged ++ " purged), "
      ++ toString instructions ++ " instructions"
  | allocationStarted c => "register allocation for `" ++ c ++ "` started"
  | flowGraphMade nodes edges =>
    "dataflow graph: " ++ toString nodes ++ " nodes, " ++ toString edges ++ " edges"
  | livenessConverged passes => "liveness converged after " ++ toString passes ++ " passes"
  | interferenceMade vertices edges =>
    "interference graph: " ++ toString vertices ++ " nodes, " ++ toString edges ++ " edges"
  | registerChosen name slot color =>
    "`" ++ name ++ "` (slot " ++ toString slot ++ ") -> r" ++ toString color
  | allocationDone names registers =>
    toString names ++ " variables in " ++ toString registers ++ " registers"
  | fileWritten path => "wrote " ++ path
  | fileNotWritten path reason => "could not write " ++ path ++ ": " ++ reason

end Report

/-- Reports in the order in which they were made. -/
abbrev Journal := List Report

/-- The reports of feeding one event. -/
def Builder.feedJournal (b : Builder) : Event → Journal
  | .label l =>
    if (b.findLabel? l).isSome then [] else (b.pending.waitingOn l).map fun _ => .jumpResolved l
  | _ => []

/-- The reports of feeding events up to the first that is refused. -/
def Builder.feedAllJournal (b : Builder) : List Event → Journal
  | [] => []
  | e :: es => b.feedJournal e ++ match b.feed e with
    | .ok b' => b'.feedAllJournal es
    | .error _ => []

/-- The reports of taking blocks out of a graph one after the other. -/
def Digraph.contractJournal (flow : Digraph) : List Nat → Journal
  | [] => []
  | b :: bs =>
    .blockPurged b (flow.preds b).size (flow.succs b).size :: (flow.contract b).contractJournal bs

/-- The reports of purging a graph. -/
def BlockGraph.purgeJournal (g : BlockGraph) : Journal :=
  g.flow.contractJournal ((g.blocks.filter Block.isRemovable).map Block.id)

/-- The reports of finishing a graph. -/
def Builder.finishJournal (b : Builder) : Journal :=
  match b.finish with
  | .error _ => []
  | .ok g => b.graph.purgeJournal
      ++ [.graphFinished g.head.className g.blocks.length
        (b.graph.blocks.length - g.blocks.length) g.instCount]

/-- The reports of building a graph. -/
def BlockGraph.buildJournal (head : Head) (events : List Event) : Journal :=
  (Builder.start head).feedAllJournal events
    ++ match (Builder.start head).feedAll events with
      | .ok b => b.finishJournal
      | .error _ => []

/-- The report of making a flow graph. -/
def FlowGraph.journal (g : FlowGraph) : Journal := [.flowGraphMade g.size g.edgeCount]

/-- A solved step reports how many sweeps it took. -/
def StepAnswer.journal : StepAnswer → Journal
  | passes n => [.livenessConverged n]
  | _ => []

namespace InterferenceGraph

/-- The report of making an interference graph. -/
def journal (g : InterferenceGraph) : Journal := [.interferenceMade g.vertices.length g.edges.length]

/-- The reports of colouring a graph. -/
def coloringJournal (g : InterferenceGraph) : Journal :=
  g.colored.allocation.assignment.map fun x => .registerChosen x.name x.slot x.color

end InterferenceGraph

/-- The reports of allocating registers, up to an undeclared slot. -/
def BlockGraph.allocateJournal (g : BlockGraph) (t : SymbolTable) : Journal :=
  let flow := g.flowGraph
  let solved := flow.solved
  .allocationStarted g.head.className :: flow.journal ++ .livenessConverged solved.2
    :: match InterferenceGraph.ofLiveness solved.1 t with
      | .error _ => []
      | .ok ig => ig.journal ++ ig.coloringJournal
          ++ [.allocationDone ig.colored.allocation.assignment.length
            ig.colored.allocation.registers]

/-- The reports of lowering a program, with labels counted from `n`. -/
def Program.lowerJournal (t : SymbolTable) (p : Program) (n : Nat) : Journal :=
  .loweringStarted p.className :: match p.maxStackDepth with
    | .error _ => []
    | .ok depth =>
      let head : Head := ⟨p.source, p.className, depth, t.localCount⟩
      .stackDepth p.className depth :: match (p.code t n).events with
        | .error _ => (Builder.start head).feedAllJournal (p.code t n).emitted
        | .ok events => BlockGraph.buildJournal head events

/-- The reports of compiling a program. -/
def Program.compileJournal (t : SymbolTable) (p : Program) (n : Nat) : Journal :=
  p.lowerJournal t n ++ match p.lower t n with
    | .ok g => g.allocateJournal t
    | .error _ => []

namespace Listing

/-- The report of a listing that was read. -/
def journal (l : Listing) : Journal :=
  [.listingRead l.head.className l.events.length l.symbols.size]

/-- The report of reading a listing. -/
def parseJournal (src : String) : Journal :=
  match parse src with
  | .ok l => l.journal
  | .error _ => []

/-- The reports of reading a listing and building its graph. -/
def readJournal (src : String) : Journal :=
  match parse src with
  | .ok l => l.journal ++ BlockGraph.buildJournal l.head (l.events.map Located.event)
  | .error _ => []

end Listing

end SlotColoring
