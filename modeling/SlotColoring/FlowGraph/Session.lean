import SlotColoring.FlowGraph.Liveness

/-!
# Steps on the live sets of a flow graph

The live sets can be brought up to date step by step.  A step may name nodes that the graph does
not have, or an order of the wrong length; it is then at fault, and what it did up to that point
stays done.
-/

namespace SlotColoring

/-- A step on the live sets. -/
inductive LivenessStep where
  | update (node : Nat)
  | sweep (nodes : List Nat)
  | solveInOrder (order : List Nat)
  | solve
deriving DecidableEq

/-- What a step tells. -/
inductive StepAnswer where
  /-- Whether a set changed. -/
  | changed (b : Bool)
  /-- The number of sweeps made. -/
  | passes (n : Nat)
  /-- There is no such node, or the order is too short or too long. -/
  | fault
deriving DecidableEq

/-- Live sets that an update can only add to. -/
abbrev GrowingSets (g : FlowGraph) := { s : Liveness g // s.Growing }

namespace GrowingSets

variable {g : FlowGraph}

/-- The sets before any step. -/
def empty (g : FlowGraph) : GrowingSets g := ⟨.empty g, Liveness.growing_empty g⟩

/-- Sweeps over the nodes before the first that the graph does not have, and tells whether any
set changed if there is no such node. -/
def sweep (s : GrowingSets g) (nodes : List Nat) : GrowingSets g × StepAnswer :=
  let known := nodes.takeWhile fun i => decide (i < g.size)
  let swept := s.1.sweep known
  (⟨swept.1, s.2.sweep known⟩,
    if known.length = nodes.length then .changed swept.2 else .fault)

/-- Solves the sets in an order, which has to have the length of the graph and only nodes of it. -/
def solveInOrder (s : GrowingSets g) (order : List Nat) : GrowingSets g × StepAnswer :=
  if order.length ≠ g.size then (s, .fault)
  else if order.all fun i => decide (i < g.size) then
    (⟨(s.1.solveInOrder order s.2).1, s.2.solveInOrder⟩, .passes (s.1.solveInOrder order s.2).2)
  else ((s.sweep order).1, .fault)

/-- Takes a step; one that names a node that the graph does not have is a fault. -/
def step (s : GrowingSets g) : LivenessStep → GrowingSets g × StepAnswer
  | .update node => s.sweep [node]
  | .sweep nodes => s.sweep nodes
  | .solveInOrder order => s.solveInOrder order
  | .solve => s.solveInOrder (Liveness.backwards g)

/-- The live sets after some steps. -/
def run (s : GrowingSets g) (steps : List LivenessStep) : GrowingSets g :=
  steps.foldl (fun s x => (s.step x).1) s

end GrowingSets

end SlotColoring
