import SlotColoring.FlowGraph.Liveness
import SlotColoring.SymbolTable
import SlotColoring.Text.Quoted

/-!
# Interference graphs

Two slots interfere if both are live after one instruction: they cannot share a register.  The
graph has a vertex for each declared variable, in ascending order of the slots, and is built from
the live sets node by node; every slot that turns up has to be declared.
-/

namespace SlotColoring

/-- A slot that an instruction or a live set names and the symbol table does not. -/
structure UndeclaredSlot where
  slot : Slot
deriving DecidableEq

/-- What a reader is told about the error. -/
def UndeclaredSlot.message (e : UndeclaredSlot) : String :=
  "slot " ++ toString e.slot ++ " is used but not declared in the symbol table"

/-- A variable, the slots that interfere with its own, and its register once it has one. -/
structure Vertex where
  name : String
  slot : Slot
  neighbors : SlotSet
  color : Option Nat
deriving DecidableEq

/-- The declared variables in ascending order of their slots. -/
structure InterferenceGraph where
  vertices : List Vertex
deriving DecidableEq

namespace InterferenceGraph

/-- The graph without edges. -/
def ofSymbols (t : SymbolTable) : InterferenceGraph :=
  ⟨t.bindings.map fun b => ⟨b.name, b.slot, ∅, none⟩⟩

/-- The vertex of a slot. -/
def vertex? (g : InterferenceGraph) (slot : Slot) : Option Vertex :=
  g.vertices.find? fun v => v.slot = slot

/-- The slot has a vertex. -/
def declares (g : InterferenceGraph) (slot : Slot) : Bool := (g.vertex? slot).isSome

/-- Makes every two of the slots interfere. -/
def interfere (g : InterferenceGraph) (live : SlotSet) : InterferenceGraph :=
  ⟨g.vertices.map fun v =>
    if v.slot ∈ live then { v with neighbors := v.neighbors.union (live.erase v.slot) } else v⟩

/-- The slots that a node names: the one it writes, the one it reads, those live after it. -/
def slotsAt {f : FlowGraph} (s : Liveness f) (i : Nat) : List Slot :=
  (f.writes? i).toList ++ (f.reads? i).toList ++ (s.liveOut i).toList

/-- Makes the slots that are live after a node interfere. -/
def addNode {f : FlowGraph} (s : Liveness f) (g : InterferenceGraph) (i : Nat) :
    Except UndeclaredSlot InterferenceGraph :=
  match (slotsAt s i).find? fun x => !g.declares x with
  | some x => .error ⟨x⟩
  | none => .ok (g.interfere (s.liveOut i))

/-- Goes through nodes up to the first that names an undeclared slot. -/
def addNodes {f : FlowGraph} (s : Liveness f) (g : InterferenceGraph) :
    List Nat → Except UndeclaredSlot InterferenceGraph
  | [] => .ok g
  | i :: is => match addNode s g i with
    | .ok g' => addNodes s g' is
    | .error e => .error e

/-- The interference graph of the live sets. -/
def ofLiveness {f : FlowGraph} (s : Liveness f) (t : SymbolTable) :
    Except UndeclaredSlot InterferenceGraph :=
  addNodes s (ofSymbols t) (List.range f.size)

/-- The second slot is a neighbour of the first. -/
def interferes (g : InterferenceGraph) (a b : Slot) : Bool :=
  (g.vertex? a).any fun v => b ∈ v.neighbors

/-- Each edge once, the lower slot first, in ascending order. -/
def edges (g : InterferenceGraph) : List (Slot × Slot) :=
  g.vertices.flatMap fun v =>
    (v.neighbors.toList.filter fun w => v.slot < w).map fun w => (v.slot, w)

/-- The position of a slot's vertex. -/
def position? (g : InterferenceGraph) (slot : Slot) : Option Nat :=
  g.vertices.findIdx? fun v => v.slot = slot

open Text in
/-- What is written on a vertex. -/
def caption (v : Vertex) : String :=
  quotesEscaped (v.name ++ " (" ++ toString v.slot ++ ")"
    ++ (v.color.map fun c => " r" ++ toString c).getD "")

/-- The line that draws a vertex. -/
def vertexLine (v : Vertex) : String :=
  "    v" ++ toString v.slot ++ " [label=\"" ++ caption v ++ "\"];"

/-- The line that draws an edge. -/
def edgeLine (e : Slot × Slot) : String :=
  "    v" ++ toString e.1 ++ " -- v" ++ toString e.2 ++ ";"

/-- The graph as the lines of a Graphviz drawing. -/
def drawing (g : InterferenceGraph) : List String :=
  "graph interference \x7b" :: g.vertices.map vertexLine ++ g.edges.map edgeLine ++ ["\x7d"]

end InterferenceGraph

end SlotColoring
