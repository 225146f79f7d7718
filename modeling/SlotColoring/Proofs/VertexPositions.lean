import SlotColoring.Proofs.FirstFit

/-!
# Vertices by their positions

The vertices of an interference graph may be named by where they stand instead of by their slots.
They ascend, so this keeps their order (`Ordered.position_lt_iff`), and neighbours, edges and
registers can be read off the positions alone: the neighbours of a vertex are positions then
(`neighborsAt`), an edge is listed with its lower position first (`edgesByPosition`), and the
registers are written into a table from front to back (`colorsByPosition`).  All of them are what
the graph has by slots (`positions_sound`).
-/

namespace SlotColoring

namespace InterferenceGraph

variable {f : FlowGraph} {s : Liveness f} {t : SymbolTable} {g : InterferenceGraph}
  {v w : Vertex} {a b : Slot} {i j u : Nat}

/-- The positions of the neighbours of the vertex at `u`. -/
def neighborsAt (g : InterferenceGraph) (u : Nat) : OrdSet Nat :=
  .ofList (((g.vertices[u]?.map Vertex.neighbors).getD ∅).toList.filterMap g.position?)

/-- The slot of the vertex at a position. -/
def slotAt? (g : InterferenceGraph) (i : Nat) : Option Slot := g.vertices[i]?.map Vertex.slot

/-- The slots of those neighbours of the vertex at `u` that stand after it. -/
def laterNeighbors (g : InterferenceGraph) (u : Nat) : List Slot :=
  ((g.neighborsAt u).toList.filter fun j => u < j).filterMap g.slotAt?

/-- Each edge once, with its lower position first, in ascending order of the positions. -/
def edgesByPosition (g : InterferenceGraph) : List (Slot × Slot) :=
  g.vertices.zipIdx.flatMap fun e => (g.laterNeighbors e.2).map fun b => (e.1.slot, b)

/-- The registers that the vertices at some positions have; `0` stands for none. -/
def takenAt (colors : List Nat) (positions : OrdSet Nat) : OrdSet Nat :=
  .ofList ((positions.toList.map fun j => colors.getD j 0).filter fun c => c ≠ 0)

/-- Gives the vertex at `u` the first register that none of its neighbours has. -/
def colorAt (g : InterferenceGraph) (colors : List Nat) (u : Nat) : List Nat :=
  colors.set u (firstGap 1 (takenAt colors (g.neighborsAt u)).toList)

/-- The registers of the vertices by position, given out from front to back. -/
def colorsByPosition (g : InterferenceGraph) : List Nat :=
  (List.range g.vertices.length).foldl g.colorAt (List.replicate g.vertices.length 0)

section Order

theorem Ordered.position_lt_iff (h : g.Ordered) (hi : g.vertices[i]? = some v)
    (hj : g.vertices[j]? = some w) : i < j ↔ v.slot < w.slot := by
  obtain ⟨hilt, rfl⟩ := List.getElem?_eq_some_iff.mp hi
  obtain ⟨hjlt, rfl⟩ := List.getElem?_eq_some_iff.mp hj
  have hascend := List.pairwise_iff_getElem.mp h
  refine ⟨hascend i j hilt hjlt, fun hlt => ?_⟩
  by_contra hge
  rcases Nat.lt_or_eq_of_le (Nat.le_of_not_lt hge) with hji | rfl
  · exact StrictTotal.irrefl _ (StrictTotal.trans hlt (hascend j i hjlt hilt hji))
  · exact StrictTotal.irrefl _ hlt

theorem Ordered.position?_eq_some_iff (h : g.Ordered) :
    g.position? a = some i ↔ ∃ v, g.vertices[i]? = some v ∧ v.slot = a := by
  unfold position?
  rw [List.findIdx?_eq_some_iff_getElem]
  refine ⟨fun hfound => ?_, fun hstands => ?_⟩
  · obtain ⟨hi, hslot, -⟩ := hfound
    exact ⟨_, List.getElem?_eq_getElem hi, by simpa using hslot⟩
  · obtain ⟨v, hv, rfl⟩ := hstands
    obtain ⟨hi, rfl⟩ := List.getElem?_eq_some_iff.mp hv
    refine ⟨hi, by simp, fun j hji => ?_⟩
    -- a vertex further to the front has a lower slot
    have hlt := List.pairwise_iff_getElem.mp h j i (hji.trans hi) hi hji
    have hne : g.vertices[j].slot ≠ g.vertices[i].slot := fun heq =>
      StrictTotal.irrefl _ (heq ▸ hlt)
    simpa using hne

theorem Ordered.mem_neighborsAt (h : g.Ordered) (hu : g.vertices[u]? = some v) :
    j ∈ g.neighborsAt u ↔ ∃ w, g.vertices[j]? = some w ∧ w.slot ∈ v.neighbors := by
  rw [neighborsAt, hu, OrdSet.mem_ofList, List.mem_filterMap]
  refine ⟨fun hmem => ?_, fun hstands => ?_⟩
  · obtain ⟨a, ha, hj⟩ := hmem
    obtain ⟨w, hw, rfl⟩ := h.position?_eq_some_iff.mp hj
    exact ⟨w, hw, ha⟩
  · obtain ⟨w, hw, hslot⟩ := hstands
    exact ⟨w.slot, hslot, h.position?_eq_some_iff.mpr ⟨w, hw, rfl⟩⟩

end Order

section Edges

/-- Every neighbour in the graph of some live sets has a vertex of its own. -/
theorem exists_neighbor_vertex (h : ofLiveness s t = .ok g) (hv : v ∈ g.vertices)
    (ha : a ∈ v.neighbors) : ∃ (j : Nat) (w : Vertex), g.vertices[j]? = some w ∧ w.slot = a := by
  obtain ⟨hnamed, -, hneighbors⟩ := ofLiveness_spec h
  obtain ⟨i, hi, -, hlive, -⟩ := (hneighbors v hv a).mp ha
  obtain ⟨w, hw, hslot⟩ := declares_iff.mp (hnamed i hi a (mem_slotsAt_of_mem_liveOut hlive))
  obtain ⟨j, hj⟩ := List.mem_iff_getElem?.mp hw
  exact ⟨j, w, hj, hslot⟩

theorem interferes_iff_position (h : ofLiveness s t = .ok g) : g.interferes a b = true ↔
    ∃ i j, g.position? a = some i ∧ g.position? b = some j ∧ j ∈ g.neighborsAt i := by
  have hordered := ordered_ofLiveness h
  simp only [hordered.interferes_iff_mem, hordered.position?_eq_some_iff]
  refine ⟨fun hab => ?_, fun hpositions => ?_⟩
  · obtain ⟨v, hv, ha, hb⟩ := hab
    obtain ⟨i, hi⟩ := List.mem_iff_getElem?.mp hv
    obtain ⟨j, w, hj, rfl⟩ := exists_neighbor_vertex h hv hb
    exact ⟨i, j, ⟨v, hi, ha⟩, ⟨w, hj, rfl⟩, (hordered.mem_neighborsAt hi).mpr ⟨w, hj, hb⟩⟩
  · obtain ⟨i, j, ⟨v, hi, ha⟩, ⟨w, hj, hb⟩, hmem⟩ := hpositions
    obtain ⟨w', hj', hslot⟩ := (hordered.mem_neighborsAt hi).mp hmem
    obtain rfl := Option.some.inj (hj.symm.trans hj')
    exact ⟨v, List.mem_of_getElem? hi, ha, hb ▸ hslot⟩

/-- Positions further back, taken in ascending order, have ascending slots. -/
theorem Ordered.ascending_slotAt (h : g.Ordered) {is : List Nat} (his : Ascending is) :
    Ascending (is.filterMap g.slotAt?) := by
  refine List.pairwise_filterMap.mpr (his.imp fun {i j} hij a ha b hb => ?_)
  obtain ⟨v, hv, rfl⟩ := Option.map_eq_some_iff.mp ha
  obtain ⟨w, hw, rfl⟩ := Option.map_eq_some_iff.mp hb
  exact (h.position_lt_iff hv hw).mp hij

theorem laterNeighbors_eq (h : ofLiveness s t = .ok g) (hu : g.vertices[u]? = some v) :
    g.laterNeighbors u = v.neighbors.toList.filter fun b => v.slot < b := by
  have hordered := ordered_ofLiveness h
  refine (hordered.ascending_slotAt ((g.neighborsAt u).ascending.filter _)).eq_of_mem_iff
    (v.neighbors.ascending.filter _) fun b => ?_
  simp only [List.mem_filterMap, List.mem_filter, OrdSet.mem_toList, decide_eq_true_eq,
    hordered.mem_neighborsAt hu, slotAt?, Option.map_eq_some_iff]
  refine ⟨fun hlater => ?_, fun hneighbor => ?_⟩
  · obtain ⟨j, ⟨⟨w, hj, hslot⟩, hlt⟩, w', hj', hb⟩ := hlater
    obtain rfl := Option.some.inj (hj.symm.trans hj')
    exact hb ▸ ⟨hslot, (hordered.position_lt_iff hu hj).mp hlt⟩
  · obtain ⟨hb, hlt⟩ := hneighbor
    obtain ⟨j, w, hj, rfl⟩ := exists_neighbor_vertex h (List.mem_of_getElem? hu) hb
    exact ⟨j, ⟨⟨w, hj, hb⟩, (hordered.position_lt_iff hu hj).mpr hlt⟩, w, hj, rfl⟩

theorem edgesByPosition_eq (h : ofLiveness s t = .ok g) : g.edgesByPosition = g.edges := by
  have hlater : ∀ e ∈ g.vertices.zipIdx, (g.laterNeighbors e.2).map (fun b => (e.1.slot, b))
      = (e.1.neighbors.toList.filter fun b => e.1.slot < b).map fun b => (e.1.slot, b) :=
    fun e he => by rw [laterNeighbors_eq h (List.mem_zipIdx_iff_getElem?.mp he)]
  have hvertices : g.vertices.zipIdx.map Prod.fst = g.vertices := List.zipIdx_map_fst 0 _
  unfold edgesByPosition edges
  rw [List.flatMap_congr hlater]
  conv_rhs => rw [← hvertices, List.flatMap_map]

end Edges

section Colors

theorem length_colored (g : InterferenceGraph) :
    g.colored.vertices.length = g.vertices.length := by
  rw [← List.length_map Vertex.uncolored, g.uncolored_colored, List.length_map]

theorem neighborsAt_colored (g : InterferenceGraph) (u : Nat) :
    g.colored.neighborsAt u = g.neighborsAt u := by
  have hslots : g.colored.vertices.map Vertex.slot = g.vertices.map Vertex.slot :=
    map_colorFrom (fun _ _ => rfl) g.vertices []
  have hneighbors : g.colored.vertices.map Vertex.neighbors = g.vertices.map Vertex.neighbors :=
    map_colorFrom (fun _ _ => rfl) g.vertices []
  have hposition : g.colored.position? = g.position? := by
    have hmap : ∀ g' : InterferenceGraph, g'.position?
        = fun a => (g'.vertices.map Vertex.slot).findIdx? fun b => b = a := fun g' => by
      funext a
      rw [List.findIdx?_map]
      rfl
    rw [hmap, hmap, hslots]
  rw [neighborsAt, neighborsAt, ← List.getElem?_map, ← List.getElem?_map, hneighbors, hposition]

/-- The vertices before `u` have their registers in the table, the others none. -/
def ColoredUpTo (g : InterferenceGraph) (u : Nat) (colors : List Nat) : Prop :=
  ∀ j : Nat, colors[j]?
    = g.colored.vertices[j]?.map fun v => if j < u then v.color.getD 0 else 0

/-- What the table shows of the neighbours of a vertex are the registers of those before it. -/
theorem Ordered.takenAt_eq (h : g.Ordered) {colors : List Nat} (hcolors : g.ColoredUpTo u colors)
    (hu : g.colored.vertices[u]? = some v) :
    takenAt colors (g.neighborsAt u) = takenBy (g.colored.below v) v := by
  have hordered := h.colored
  have hshown : ∀ {j : Nat} {w : Vertex}, g.colored.vertices[j]? = some w →
      colors.getD j 0 = if j < u then w.color.getD 0 else 0 := fun {j w} hj => by
    rw [List.getD_eq_getElem?_getD, hcolors j, hj, Option.map_some, Option.getD_some]
  refine OrdSet.ext_mem fun c => ?_
  simp only [takenAt, OrdSet.mem_ofList, List.mem_filter, List.mem_map, OrdSet.mem_toList,
    decide_eq_true_eq, mem_takenBy, mem_below, ← g.neighborsAt_colored u,
    hordered.mem_neighborsAt hu]
  refine ⟨fun hshows => ?_, fun hlower => ?_⟩
  · obtain ⟨⟨j, ⟨w, hj, hslot⟩, hc⟩, hne⟩ := hshows
    obtain ⟨d, hd, -⟩ := colored_colorFrom _ _ w (List.mem_of_getElem? hj)
    rw [hshown hj, hd] at hc
    split at hc
    · rename_i hju
      exact ⟨w, ⟨List.mem_of_getElem? hj, (hordered.position_lt_iff hj hu).mp hju⟩, hslot,
        hd.trans (congrArg some hc)⟩
    · exact absurd hc.symm hne
  · obtain ⟨w, ⟨hw, hlt⟩, hslot, hc⟩ := hlower
    obtain ⟨j, hj⟩ := List.mem_iff_getElem?.mp hw
    obtain ⟨d, hd, hpos⟩ := colored_colorFrom _ _ w hw
    obtain rfl := Option.some.inj (hd.symm.trans hc)
    refine ⟨⟨j, ⟨w, hj, hslot⟩, ?_⟩, by omega⟩
    rw [hshown hj, if_pos ((hordered.position_lt_iff hj hu).mpr hlt), hc, Option.getD_some]

theorem Ordered.coloredUpTo_succ (h : g.Ordered) {colors : List Nat}
    (hcolors : g.ColoredUpTo u colors) (hu : g.colored.vertices[u]? = some v) :
    g.ColoredUpTo (u + 1) (g.colorAt colors u) := by
  have hcolor := h.color_eq (List.mem_of_getElem? hu)
  have hlt : u < colors.length := by
    have hshown := hcolors u
    rw [hu, Option.map_some] at hshown
    exact (List.getElem?_eq_some_iff.mp hshown).1
  intro j
  rw [colorAt, h.takenAt_eq hcolors hu]
  by_cases huj : u = j
  · subst huj
    rw [List.getElem?_set_self hlt, hu, Option.map_some, if_pos (Nat.lt_succ_self u), hcolor]
    rfl
  · rw [List.getElem?_set_ne huj, hcolors j]
    refine congrArg (fun paint => Option.map paint _) (funext fun w => ?_)
    exact if_congr (by omega) rfl rfl

theorem Ordered.coloredUpTo_foldl (h : g.Ordered) : ∀ {u : Nat}, u ≤ g.vertices.length →
    g.ColoredUpTo u ((List.range u).foldl g.colorAt (List.replicate g.vertices.length 0))
  | 0, _ => by
    intro j
    show (List.replicate g.vertices.length 0)[j]? = _
    rw [← g.length_colored, ← List.map_const', List.getElem?_map]
    rfl
  | u + 1, hu => by
    have hget : g.colored.vertices[u]? = some _ :=
      List.getElem?_eq_getElem (g.length_colored ▸ hu)
    rw [List.range_succ, List.foldl_append]
    exact h.coloredUpTo_succ (h.coloredUpTo_foldl (Nat.le_of_succ_le hu)) hget

theorem Ordered.colorsByPosition_eq (h : g.Ordered) :
    g.colorsByPosition = g.colored.vertices.map fun v => v.color.getD 0 := by
  refine List.ext_getElem? fun j => ?_
  rw [colorsByPosition, h.coloredUpTo_foldl (Nat.le_refl _) j, List.getElem?_map]
  rcases hj : g.colored.vertices[j]? with _ | v
  · rfl
  · have hlt : j < g.vertices.length := by
      rw [← g.length_colored]
      exact (List.getElem?_eq_some_iff.mp hj).1
    rw [Option.map_some, Option.map_some, if_pos hlt]

end Colors

end InterferenceGraph

/-- What the positions of the vertices show of an interference graph. -/
structure PositionsSound (g : InterferenceGraph) : Prop where
  found : ∀ a i, g.position? a = some i ↔ g.slotAt? i = some a
  ascending : ∀ a b i j, g.position? a = some i → g.position? b = some j → (a < b ↔ i < j)
  interferes : ∀ a b, g.interferes a b = true ↔
    ∃ i j, g.position? a = some i ∧ g.position? b = some j ∧ j ∈ g.neighborsAt i
  edges : g.edges = g.edgesByPosition
  colors : g.colored.vertices.map (fun v => v.color.getD 0) = g.colorsByPosition

/-- Neighbours, edges and the greedy order are the same by slots and by positions. -/
theorem positions_sound {f : FlowGraph} {s : Liveness f} {t : SymbolTable} {g : InterferenceGraph}
    (h : InterferenceGraph.ofLiveness s t = .ok g) : PositionsSound g := by
  have hordered := InterferenceGraph.ordered_ofLiveness h
  refine ⟨fun a i => ?_, fun a b i j ha hb => ?_,
    fun a b => InterferenceGraph.interferes_iff_position h,
    (InterferenceGraph.edgesByPosition_eq h).symm, hordered.colorsByPosition_eq.symm⟩
  · rw [hordered.position?_eq_some_iff, InterferenceGraph.slotAt?, Option.map_eq_some_iff]
  · obtain ⟨v, hv, rfl⟩ := hordered.position?_eq_some_iff.mp ha
    obtain ⟨w, hw, rfl⟩ := hordered.position?_eq_some_iff.mp hb
    exact (hordered.position_lt_iff hv hw).symm

end SlotColoring
