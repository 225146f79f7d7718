import SlotColoring.Interference.Basic

/-!
# Colouring and allocation

Registers are given out greedily: each variable, in ascending order of the slots, takes the first
register that no coloured neighbour has.
-/

namespace SlotColoring

/-- A variable with its register. -/
structure Assigned where
  name : String
  slot : Slot
  color : Nat
deriving DecidableEq

/-- The number of registers used, and each variable's register in ascending order of the slots. -/
structure Allocation where
  registers : Nat
  assignment : List Assigned
deriving DecidableEq

namespace Allocation

/-- The register of a variable. -/
def colorOf? (a : Allocation) (name : String) : Option Nat :=
  (a.assignment.find? fun x => x.name = name).map Assigned.color

/-- The register of a slot. -/
def colorOfSlot? (a : Allocation) (slot : Slot) : Option Nat :=
  (a.assignment.find? fun x => x.slot = slot).map Assigned.color

/-- The allocation as it is printed. -/
def text (a : Allocation) : String :=
  "registers: " ++ toString a.registers ++ "\n"
    ++ String.join (a.assignment.map fun x =>
      "    " ++ x.name ++ " (slot " ++ toString x.slot ++ ") => r" ++ toString x.color ++ "\n")

end Allocation

/-- The first number from `c` on that an ascending list does not hold. -/
def firstGap (c : Nat) : List Nat → Nat
  | [] => c
  | d :: l => if d = c then firstGap (c + 1) l else c

theorem le_firstGap : ∀ (c : Nat) (l : List Nat), c ≤ firstGap c l
  | c, [] => Nat.le_refl c
  | c, d :: l => by
    have ih := le_firstGap (c + 1) l
    simp only [firstGap]
    split <;> omega

/-- All numbers before the gap are in the list. -/
theorem mem_of_lt_firstGap {n : Nat} : ∀ {c : Nat} {l : List Nat}, c ≤ n → n < firstGap c l →
    n ∈ l
  | c, [], hc, hn => absurd hn (Nat.not_lt.mpr hc)
  | c, d :: l, hc, hn => by
    simp only [firstGap] at hn
    split at hn
    · rename_i h
      by_cases hcn : n = c
      · exact List.mem_cons.mpr (.inl (hcn.trans h.symm))
      · exact List.mem_cons_of_mem _ (mem_of_lt_firstGap (by omega) hn)
    · exact absurd hn (Nat.not_lt.mpr hc)

theorem firstGap_not_mem : ∀ {c : Nat} {l : List Nat}, Ascending l → (∀ d ∈ l, c ≤ d) →
    firstGap c l ∉ l
  | _, [], _, _ => List.not_mem_nil
  | c, d :: l, h, hc => by
    have hd := List.pairwise_cons.mp h
    have hcd := hc d List.mem_cons_self
    simp only [firstGap]
    split
    · rename_i hdc
      have hge := le_firstGap (c + 1) l
      have ih := firstGap_not_mem hd.2 fun e he => show c + 1 ≤ e from hdc ▸ hd.1 e he
      simp only [List.mem_cons, not_or]
      exact ⟨by omega, ih⟩
    · rename_i hdc
      intro hm
      rcases List.mem_cons.mp hm with h' | h'
      · exact hdc h'.symm
      · have := hd.1 c h'
        omega

namespace InterferenceGraph

/-- The registers of a vertex's neighbours. -/
def takenBy (done : List Vertex) (v : Vertex) : OrdSet Nat :=
  .ofList (done.filterMap fun u => if u.slot ∈ v.neighbors then u.color else none)

/-- Gives each vertex the first register that its neighbours among `done` do not have. -/
def colorFrom (done : List Vertex) : List Vertex → List Vertex
  | [] => []
  | v :: vs =>
    let v' := { v with color := some (firstGap 1 (takenBy done v).toList) }
    v' :: colorFrom (v' :: done) vs

/-- The graph with a register for each variable, whatever registers it had before. -/
def colored (g : InterferenceGraph) : InterferenceGraph := ⟨colorFrom [] g.vertices⟩

/-- The registers that the graph shows. -/
def allocation (g : InterferenceGraph) : Allocation where
  registers := (OrdSet.ofList (g.vertices.filterMap Vertex.color)).size
  assignment := g.vertices.filterMap fun v => v.color.map fun c => ⟨v.name, v.slot, c⟩

/-- Every variable has a register that none of its neighbours has. -/
def isValidColoring (g : InterferenceGraph) : Bool :=
  g.vertices.all fun v =>
    v.color.isSome && v.neighbors.toList.all fun w =>
      (g.vertex? w).all fun u => u.color ≠ v.color

end InterferenceGraph

/-- What register allocation makes of a control-flow graph. -/
structure Allocated where
  flow : FlowGraph
  live : Liveness flow
  interference : InterferenceGraph
  allocation : Allocation

/-- Registers for the variables of a control-flow graph, from its live sets. -/
def BlockGraph.allocate (g : BlockGraph) (t : SymbolTable) : Except UndeclaredSlot Allocated :=
  let flow := g.flowGraph
  let live := flow.solved.1
  match InterferenceGraph.ofLiveness live t with
  | .ok ig => .ok ⟨flow, live, ig.colored, ig.colored.allocation⟩
  | .error e => .error e

end SlotColoring
