import SlotColoring.FlowGraph.Basic

/-!
# Liveness

A slot is live where its content may still be read.  The live sets of a flow graph are computed by
updating one node at a time from its successors, in sweeps over the nodes, until a sweep changes
nothing.

From the empty sets on, no update ever takes a slot out of a set (`Liveness.Growing.update`), and
there are only so many slots, so the sweeps come to an end in whatever order they visit the nodes
(`Liveness.weight_lt_sweep`).
-/

namespace SlotColoring

/-- The slots that are live before and after a node. -/
structure LivePair where
  liveIn : SlotSet
  liveOut : SlotSet
deriving DecidableEq

/-- The number of slots in the two sets. -/
def LivePair.size (p : LivePair) : Nat := p.liveIn.size + p.liveOut.size

/-- A pair of live sets for each node of a flow graph. -/
structure Liveness (g : FlowGraph) where
  sets : Vector LivePair g.size
deriving DecidableEq

namespace Liveness

variable {g : FlowGraph}

/-- No slot is live anywhere. -/
def empty (g : FlowGraph) : Liveness g := ⟨Vector.replicate g.size ⟨∅, ∅⟩⟩

/-- The slots that are live before a node. -/
def liveIn (s : Liveness g) (i : Nat) : SlotSet := (s.sets[i]?.map LivePair.liveIn).getD ∅

/-- The slots that are live after a node. -/
def liveOut (s : Liveness g) (i : Nat) : SlotSet := (s.sets[i]?.map LivePair.liveOut).getD ∅

/-- What is live after a node, by what is live before its successors. -/
def nextOut (s : Liveness g) (i : Nat) : SlotSet := .gather s.liveIn (g.succs i).toList

/-- What is live before a node: what it reads, and what is live after it and not written by it. -/
def nextIn (s : Liveness g) (i : Nat) : SlotSet :=
  let kept := (s.nextOut i).filter fun x => some x ≠ g.writes? i
  match g.reads? i with
  | some x => kept.insert x
  | none => kept

/-- Computes the sets of one node anew, and tells whether that changed them. -/
def update (s : Liveness g) (i : Nat) : Liveness g × Bool :=
  if h : i < g.size then
    (⟨s.sets.set i ⟨s.nextIn i, s.nextOut i⟩ h⟩,
      s.nextIn i ≠ s.liveIn i || s.nextOut i ≠ s.liveOut i)
  else (s, false)

/-- Updates the nodes in the order given, and tells whether any set changed. -/
def sweep (s : Liveness g) : List Nat → Liveness g × Bool
  | [] => (s, false)
  | i :: is =>
    let first := s.update i
    let rest := first.1.sweep is
    (rest.1, first.2 || rest.2)

/-- Every set of `s` lies within the set of `t` at the same place. -/
def Within (s t : Liveness g) : Prop :=
  ∀ i, s.liveIn i ⊆ t.liveIn i ∧ s.liveOut i ⊆ t.liveOut i

/-- An update can only add to the sets. -/
def Growing (s : Liveness g) : Prop :=
  ∀ i, s.liveIn i ⊆ s.nextIn i ∧ s.liveOut i ⊆ s.nextOut i

/-- The number of slots in all the sets. -/
def weight (s : Liveness g) : Nat := sumOf LivePair.size s.sets.toList

theorem mem_nextOut {s : Liveness g} {i : Nat} {x : Slot} :
    x ∈ s.nextOut i ↔ ∃ j ∈ g.succs i, x ∈ s.liveIn j := by
  simp [nextOut]

theorem mem_nextIn {s : Liveness g} {i : Nat} {x : Slot} :
    x ∈ s.nextIn i ↔ g.reads? i = some x ∨ (x ∈ s.nextOut i ∧ g.writes? i ≠ some x) := by
  simp only [nextIn]
  split
  · rename_i y hy
    simp only [OrdSet.mem_insert, OrdSet.mem_filter, decide_eq_true_eq, hy, Option.some.injEq,
      ne_comm (a := some x), eq_comm (a := x)]
  · rename_i hy
    simp only [OrdSet.mem_filter, decide_eq_true_eq, hy, reduceCtorEq, false_or,
      ne_comm (a := some x)]

theorem liveIn_update {s : Liveness g} {i j : Nat} : (s.update i).1.liveIn j =
    if j = i ∧ i < g.size then s.nextIn i else s.liveIn j := by
  unfold update liveIn
  split
  · rename_i h
    rcases Nat.lt_or_ge j g.size with hj | hj
    · by_cases hij : i = j
      · subst hij
        simp [h]
      · simp [hj, h, hij, Ne.symm hij]
    · have hne : j ≠ i := by omega
      simp [hj, hne]
  · rename_i h
    simp [h]

theorem liveOut_update {s : Liveness g} {i j : Nat} : (s.update i).1.liveOut j =
    if j = i ∧ i < g.size then s.nextOut i else s.liveOut j := by
  unfold update liveOut
  split
  · rename_i h
    rcases Nat.lt_or_ge j g.size with hj | hj
    · by_cases hij : i = j
      · subst hij
        simp [h]
      · simp [hj, h, hij, Ne.symm hij]
    · have hne : j ≠ i := by omega
      simp [hj, hne]
  · rename_i h
    simp [h]

theorem Within.refl (s : Liveness g) : s.Within s := fun _ => ⟨fun _ => id, fun _ => id⟩

theorem Within.trans {s t u : Liveness g} (h : s.Within t) (h' : t.Within u) : s.Within u :=
  fun i => ⟨fun x hx => (h' i).1 x ((h i).1 x hx), fun x hx => (h' i).2 x ((h i).2 x hx)⟩

theorem Within.nextOut {s t : Liveness g} (h : s.Within t) (i : Nat) :
    s.nextOut i ⊆ t.nextOut i := fun x hx => by
  obtain ⟨j, hj, hx⟩ := mem_nextOut.mp hx
  exact mem_nextOut.mpr ⟨j, hj, (h j).1 x hx⟩

theorem Within.nextIn {s t : Liveness g} (h : s.Within t) (i : Nat) :
    s.nextIn i ⊆ t.nextIn i := fun x hx => by
  rcases mem_nextIn.mp hx with hx | ⟨hx, hw⟩
  · exact mem_nextIn.mpr (Or.inl hx)
  · exact mem_nextIn.mpr (Or.inr ⟨h.nextOut i x hx, hw⟩)

theorem Growing.within_update {s : Liveness g} (h : s.Growing) (i : Nat) :
    s.Within (s.update i).1 := fun j => by
  rw [liveIn_update, liveOut_update]
  split
  · rename_i hji
    rw [hji.1]
    exact h i
  · exact ⟨fun _ => id, fun _ => id⟩

theorem Growing.update {s : Liveness g} (h : s.Growing) (i : Nat) : (s.update i).1.Growing := by
  have hw := h.within_update i
  intro j
  rw [liveIn_update, liveOut_update]
  split
  · rename_i hji
    rw [hji.1]
    exact ⟨hw.nextIn i, hw.nextOut i⟩
  · exact ⟨fun x hx => hw.nextIn j x ((h j).1 x hx), fun x hx => hw.nextOut j x ((h j).2 x hx)⟩

theorem Growing.sweep : ∀ (is : List Nat) {s : Liveness g}, s.Growing → (s.sweep is).1.Growing
  | [], _, h => h
  | i :: is, _, h => Growing.sweep is (h.update i)

theorem liveIn_empty (i : Nat) : (empty g).liveIn i = ∅ := by
  unfold liveIn empty
  rcases Nat.lt_or_ge i g.size with hi | hi
  · simp [hi]
  · simp [Vector.getElem?_eq_none hi]

theorem liveOut_empty (i : Nat) : (empty g).liveOut i = ∅ := by
  unfold liveOut empty
  rcases Nat.lt_or_ge i g.size with hi | hi
  · simp [hi]
  · simp [Vector.getElem?_eq_none hi]

theorem growing_empty (g : FlowGraph) : (empty g).Growing := fun i => by
  rw [liveIn_empty, liveOut_empty]
  exact ⟨fun _ h => absurd h OrdSet.not_mem_empty, fun _ h => absurd h OrdSet.not_mem_empty⟩

/-- The most that the sets can hold. -/
def capacity (g : FlowGraph) : Nat := (Slot.total + Slot.total) * g.size

theorem weight_le (s : Liveness g) : s.weight ≤ capacity g := by
  have h := sumOf_le (l := s.sets.toList) (f := LivePair.size) (b := Slot.total + Slot.total)
    fun p _ => Nat.add_le_add (SlotSet.size_le p.liveIn) (SlotSet.size_le p.liveOut)
  rwa [Vector.length_toList] at h

/-- An update puts the new sets of its node in the place of the old ones. -/
theorem weight_update {s : Liveness g} {i : Nat} (hi : i < g.size) :
    (s.update i).1.weight + ((s.liveIn i).size + (s.liveOut i).size)
      = s.weight + ((s.nextIn i).size + (s.nextOut i).size) := by
  have hset := sumOf_set LivePair.size ⟨s.nextIn i, s.nextOut i⟩ s.sets.toList i
    (by simpa using hi)
  have hin : s.liveIn i = s.sets[i].liveIn := by simp [liveIn, hi]
  have hout : s.liveOut i = s.sets[i].liveOut := by simp [liveOut, hi]
  simp only [LivePair.size, Vector.getElem_toList] at hset
  simp only [update, dif_pos hi, weight, Vector.toList_set, hin, hout]
  exact hset

theorem weight_le_update {s : Liveness g} (h : s.Growing) (i : Nat) :
    s.weight ≤ (s.update i).1.weight := by
  by_cases hi : i < g.size
  · have hw := weight_update (s := s) hi
    have hin := OrdSet.size_le_size (h i).1
    have hout := OrdSet.size_le_size (h i).2
    omega
  · simp [update, hi]

/-- An update of growing sets that tells of a change adds a slot. -/
theorem weight_lt_update {s : Liveness g} (h : s.Growing) {i : Nat}
    (hc : (s.update i).2 = true) : s.weight < (s.update i).1.weight := by
  by_cases hi : i < g.size
  · have hw := weight_update (s := s) hi
    have hin := OrdSet.size_le_size (h i).1
    have hout := OrdSet.size_le_size (h i).2
    simp only [update, dif_pos hi, Bool.or_eq_true, decide_eq_true_eq] at hc
    rcases hc with hne | hne
    · have := OrdSet.size_lt_size (h i).1 (Ne.symm hne)
      omega
    · have := OrdSet.size_lt_size (h i).2 (Ne.symm hne)
      omega
  · simp [update, hi] at hc

theorem weight_le_sweep : ∀ (is : List Nat) {s : Liveness g}, s.Growing →
    s.weight ≤ (s.sweep is).1.weight
  | [], _, _ => Nat.le_refl _
  | i :: is, _, h => Nat.le_trans (weight_le_update h i) (weight_le_sweep is (h.update i))

/-- A sweep over growing sets that tells of a change adds a slot. -/
theorem weight_lt_sweep : ∀ (is : List Nat) {s : Liveness g}, s.Growing →
    (s.sweep is).2 = true → s.weight < (s.sweep is).1.weight
  | [], _, _, hc => by simp [Liveness.sweep] at hc
  | i :: is, s, h, hc => by
    simp only [Liveness.sweep, Bool.or_eq_true] at hc ⊢
    rcases hc with hc | hc
    · exact Nat.lt_of_lt_of_le (weight_lt_update h hc) (weight_le_sweep is (h.update i))
    · exact Nat.lt_of_le_of_lt (weight_le_update h i) (weight_lt_sweep is (h.update i) hc)

/-- Sweeps in one order until a sweep changes nothing, and counts the sweeps, the last one
included. -/
def solveInOrder (order : List Nat) (s : Liveness g) (h : s.Growing) : Liveness g × Nat :=
  if hc : (s.sweep order).2 = true then
    let rest := solveInOrder order (s.sweep order).1 (h.sweep order)
    (rest.1, rest.2 + 1)
  else ((s.sweep order).1, 1)
termination_by capacity g - s.weight
decreasing_by
  have h₁ := weight_lt_sweep order h hc
  have h₂ := weight_le (s.sweep order).1
  omega

theorem Growing.solveInOrder {order : List Nat} {s : Liveness g} (h : s.Growing) :
    (solveInOrder order s h).1.Growing := by
  fun_induction Liveness.solveInOrder order s h with
  | case1 s h _ _ ih => exact ih
  | case2 s h _ => exact h.sweep order

/-- The nodes from last to first, the order in which liveness spreads. -/
def backwards (g : FlowGraph) : List Nat := (List.range g.size).reverse

/-- Solves from the given sets, visiting the nodes from last to first. -/
def solve (s : Liveness g) (h : s.Growing) : Liveness g × Nat := s.solveInOrder (backwards g) h

end Liveness

namespace FlowGraph

/-- The live sets of a flow graph, with the number of sweeps that it took to find them. -/
def solved (g : FlowGraph) : Liveness g × Nat :=
  (Liveness.empty g).solve (Liveness.growing_empty g)

open Text in
/-- A line for each node with its live sets and the nodes that may follow. -/
def text (g : FlowGraph) (s : Liveness g) : String :=
  String.join ((List.range g.size).map fun i =>
    padLeft 4 (toString i)
      ++ ": in " ++ braced ((s.liveIn i).toList.map toString)
      ++ " out " ++ braced ((s.liveOut i).toList.map toString)
      ++ " -> " ++ bracketed ((g.succs i).toList.map toString) ++ "\n")

end FlowGraph

end SlotColoring
