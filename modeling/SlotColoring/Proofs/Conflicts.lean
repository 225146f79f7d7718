import Mathlib.Data.List.Nodup
import Mathlib.Data.List.Pairwise
import SlotColoring.Interference.Coloring
import SlotColoring.Proofs.LiveSets

/-!
# Slots that are live together get different registers

The vertices of an interference graph are the bindings of the symbol table, and the neighbours of
a slot are the other slots that are live after some node together with it (`ofLiveness_spec`).  The
greedy colouring gives a vertex a register that no neighbour before it has, and of two neighbours
one comes before the other.  So every slot that a node names has a register (`exists_vertex`), and
slots that are live after one node have different ones (`colorOfSlot?_ne`).
-/

namespace SlotColoring

/-- The variable of a vertex with its slot. -/
def Vertex.binding (v : Vertex) : Binding := ⟨v.name, v.slot⟩

/-- The variable of an assignment with its slot. -/
def Assigned.binding (x : Assigned) : Binding := ⟨x.name, x.slot⟩

namespace InterferenceGraph

variable {f : FlowGraph} {s : Liveness f} {g g' : InterferenceGraph} {v : Vertex} {x w : Slot}

section Build

theorem declares_iff : g.declares x = true ↔ ∃ v ∈ g.vertices, v.slot = x := by
  simp [declares, vertex?]

theorem bindings_interfere (g : InterferenceGraph) (live : SlotSet) :
    (g.interfere live).vertices.map Vertex.binding = g.vertices.map Vertex.binding := by
  rw [interfere, List.map_map]
  refine List.map_congr_left fun v _ => ?_
  simp only [Function.comp_apply]
  split_ifs <;> rfl

theorem mem_interfere {live : SlotSet} {v' : Vertex} (hv : v' ∈ (g.interfere live).vertices) :
    ∃ v ∈ g.vertices, v'.slot = v.slot ∧ ∀ w, w ∈ v'.neighbors ↔
      w ∈ v.neighbors ∨ (v.slot ∈ live ∧ w ∈ live ∧ w ≠ v.slot) := by
  obtain ⟨v, hmem, rfl⟩ := List.mem_map.mp hv
  refine ⟨v, hmem, ?_⟩
  split_ifs with hlive
  · simp [hlive]
  · simp [hlive]

theorem declares_congr (h : g'.vertices.map Vertex.binding = g.vertices.map Vertex.binding) :
    g'.declares x = g.declares x := by
  have hslots : g'.vertices.map Vertex.slot = g.vertices.map Vertex.slot := by
    have := congrArg (List.map Binding.slot) h
    rwa [List.map_map, List.map_map] at this
  rw [Bool.eq_iff_iff, declares_iff, declares_iff]
  simp only [← List.mem_map, hslots]

theorem mem_slotsAt_of_mem_liveOut {i : Nat} (hx : x ∈ s.liveOut i) : x ∈ slotsAt s i :=
  List.mem_append_right _ (OrdSet.mem_toList.mpr hx)

theorem lt_size_of_mem_slotsAt {i : Nat} (hx : x ∈ slotsAt s i) : i < f.size := by
  by_contra hi
  have hnode : f.nodes[i]? = none := Array.getElem?_eq_none (Nat.not_lt.mp hi)
  have hsets : s.sets[i]? = none := Vector.getElem?_eq_none (Nat.not_lt.mp hi)
  simp [slotsAt, FlowGraph.writes?, FlowGraph.reads?, Liveness.liveOut, hnode, hsets] at hx

theorem addNode_ok {i : Nat} (h : addNode s g i = .ok g') :
    (∀ x ∈ slotsAt s i, g.declares x = true) ∧ g' = g.interfere (s.liveOut i) := by
  unfold addNode at h
  split at h
  · simp at h
  · rename_i hfind
    refine ⟨fun x hx => ?_, (Except.ok.inj h).symm⟩
    simpa using List.find?_eq_none.mp hfind x hx

/-- What adding nodes makes of a graph: every slot that they name is declared, and two slots become
neighbours if they are live after one of the nodes. -/
theorem addNodes_ok : ∀ (is : List Nat) {g : InterferenceGraph}, addNodes s g is = .ok g' →
    (∀ i ∈ is, ∀ x ∈ slotsAt s i, g.declares x = true)
      ∧ g'.vertices.map Vertex.binding = g.vertices.map Vertex.binding
      ∧ ∀ v' ∈ g'.vertices, ∃ v ∈ g.vertices, v'.slot = v.slot ∧ ∀ w, w ∈ v'.neighbors ↔
          w ∈ v.neighbors
            ∨ ∃ i ∈ is, v.slot ∈ s.liveOut i ∧ w ∈ s.liveOut i ∧ w ≠ v.slot
  | [], g, h => by
    obtain rfl := Except.ok.inj h
    exact ⟨by simp, rfl, fun v hv => ⟨v, hv, rfl, by simp⟩⟩
  | i :: is, g, h => by
    simp only [addNodes] at h
    split at h
    · rename_i g₁ hg₁
      obtain ⟨hnamed, rfl⟩ := addNode_ok hg₁
      have hbindings := bindings_interfere g (s.liveOut i)
      obtain ⟨hnamed', hbindings', hneighbors⟩ := addNodes_ok is h
      refine ⟨?_, hbindings'.trans hbindings, ?_⟩
      · intro j hj x hx
        rcases List.mem_cons.mp hj with rfl | hj
        · exact hnamed x hx
        · rw [← declares_congr hbindings]
          exact hnamed' j hj x hx
      · intro v' hv'
        obtain ⟨v₁, hv₁, hslot₁, hmem₁⟩ := hneighbors v' hv'
        obtain ⟨v, hv, hslot, hmem⟩ := mem_interfere hv₁
        refine ⟨v, hv, hslot₁.trans hslot, fun w => ?_⟩
        rw [hmem₁, hmem, hslot, or_assoc]
        simp
    · simp at h

theorem ofLiveness_spec {t : SymbolTable} (h : ofLiveness s t = .ok g) :
    (∀ i < f.size, ∀ x ∈ slotsAt s i, g.declares x = true)
      ∧ g.vertices.map Vertex.binding = t.bindings
      ∧ ∀ v ∈ g.vertices, ∀ w, w ∈ v.neighbors ↔
          ∃ i < f.size, v.slot ∈ s.liveOut i ∧ w ∈ s.liveOut i ∧ w ≠ v.slot := by
  obtain ⟨hnamed, hbindings, hneighbors⟩ := addNodes_ok _ h
  have hstart : (ofSymbols t).vertices.map Vertex.binding = t.bindings := by
    rw [ofSymbols, List.map_map]
    exact List.map_id _
  refine ⟨fun i hi x hx => ?_, hbindings.trans hstart, fun v hv w => ?_⟩
  · rw [declares_congr hbindings]
    exact hnamed i (List.mem_range.mpr hi) x hx
  · obtain ⟨v₀, hv₀, hslot, hmem⟩ := hneighbors v hv
    obtain ⟨b, -, rfl⟩ := List.mem_map.mp hv₀
    rw [hmem, hslot]
    simp

end Build

section Color

/-- The list is coloured so far: every vertex in it has a register. -/
def Colored (vs : List Vertex) : Prop := ∀ v ∈ vs, ∃ c, v.color = some c ∧ 1 ≤ c

/-- Colouring changes nothing but the registers. -/
theorem map_colorFrom {α : Type*} {p : Vertex → α}
    (hp : ∀ (v : Vertex) (c : Option Nat), p { v with color := c } = p v) :
    ∀ (vs done : List Vertex), (colorFrom done vs).map p = vs.map p
  | [], _ => rfl
  | v :: vs, done => by rw [colorFrom, List.map_cons, List.map_cons, hp, map_colorFrom hp vs]

theorem colored_colorFrom : ∀ (vs done : List Vertex), Colored (colorFrom done vs)
  | [], _ => by simp [Colored, colorFrom]
  | v :: vs, done => by
    intro u hu
    rw [colorFrom] at hu
    rcases List.mem_cons.mp hu with rfl | hu
    · exact ⟨_, rfl, le_firstGap 1 _⟩
    · exact colored_colorFrom vs _ u hu

theorem mem_takenBy {done : List Vertex} {c : Nat} :
    c ∈ takenBy done v ↔ ∃ u ∈ done, u.slot ∈ v.neighbors ∧ u.color = some c := by
  rw [takenBy, OrdSet.mem_ofList, List.mem_filterMap]
  refine exists_congr fun u => and_congr_right fun _ => ?_
  by_cases hslot : u.slot ∈ v.neighbors <;> simp [hslot]

theorem firstGap_not_mem_takenBy {done : List Vertex} (hdone : Colored done) (v : Vertex) :
    firstGap 1 (takenBy done v).toList ∉ takenBy done v := by
  refine firstGap_not_mem (takenBy done v).ascending fun d hd => ?_
  obtain ⟨u, hu, -, hd⟩ := mem_takenBy.mp hd
  obtain ⟨c, hc, hpos⟩ := hdone u hu
  rw [hd, Option.some.injEq] at hc
  exact hc ▸ hpos

/-- The register that a vertex takes is none that a neighbour already has. -/
theorem firstGap_takenBy_ne {done : List Vertex} (hdone : Colored done) {u : Vertex}
    (hu : u ∈ done) (hslot : u.slot ∈ v.neighbors) :
    u.color ≠ some (firstGap 1 (takenBy done v).toList) := fun hcolor =>
  firstGap_not_mem_takenBy hdone v (mem_takenBy.mpr ⟨u, hu, hslot, hcolor⟩)

theorem colorFrom_ne : ∀ (vs : List Vertex) {done : List Vertex}, Colored done →
    (∀ u ∈ done, ∀ v ∈ colorFrom done vs, u.slot ∈ v.neighbors → u.color ≠ v.color)
      ∧ (colorFrom done vs).Pairwise fun u v => u.slot ∈ v.neighbors → u.color ≠ v.color
  | [], _, _ => by simp [colorFrom]
  | v :: vs, done, hdone => by
    simp only [colorFrom]
    set v' : Vertex := { v with color := some (firstGap 1 (takenBy done v).toList) }
    have hdone' : Colored (v' :: done) := by
      intro u hu
      rcases List.mem_cons.mp hu with rfl | hu
      · exact ⟨_, rfl, le_firstGap 1 _⟩
      · exact hdone u hu
    obtain ⟨hbefore, hpairs⟩ := colorFrom_ne vs hdone'
    refine ⟨fun u hu w hw hslot => ?_, List.pairwise_cons.mpr ⟨fun w hw => ?_, hpairs⟩⟩
    · rcases List.mem_cons.mp hw with rfl | hw
      · exact firstGap_takenBy_ne hdone hu hslot
      · exact hbefore u (List.mem_cons_of_mem _ hu) w hw hslot
    · exact hbefore v' List.mem_cons_self w hw

theorem color_ne (g : InterferenceGraph) (hirrefl : ∀ v ∈ g.colored.vertices, v.slot ∉ v.neighbors)
    {u v : Vertex} (hu : u ∈ g.colored.vertices) (hv : v ∈ g.colored.vertices)
    (huv : u.slot ∈ v.neighbors) (hvu : v.slot ∈ u.neighbors) : u.color ≠ v.color := by
  have hnone : Colored [] := fun _ hmem => absurd hmem List.not_mem_nil
  have hpairs := (colorFrom_ne g.vertices hnone).2
  -- either may come first, so the statement is made one that can be turned round
  have hforward : g.colored.vertices.Pairwise fun u v =>
      u.slot ∈ v.neighbors → v.slot ∈ u.neighbors → u.color ≠ v.color :=
    hpairs.imp fun h huv _ => h huv
  have hbackward : g.colored.vertices.Pairwise fun u v =>
      v.slot ∈ u.neighbors → u.slot ∈ v.neighbors → v.color ≠ u.color :=
    hpairs.imp fun h _ huv => (h huv).symm
  exact hforward.forall_of_forall_of_flip (fun w hw hself => absurd hself (hirrefl w hw)) hbackward
    hu hv huv hvu

/-- An entry of the allocation is found by any key that tells the variables apart. -/
theorem find?_assignment {κ : Type*} [DecidableEq κ] (key : Binding → κ)
    (hkeys : (g.vertices.map fun v => key v.binding).Nodup) (hv : v ∈ g.vertices) {c : Nat}
    (hc : v.color = some c) :
    g.allocation.assignment.find? (fun x => key x.binding = key v.binding)
      = some ⟨v.name, v.slot, c⟩ := by
  rcases hfind : g.allocation.assignment.find? fun x => key x.binding = key v.binding with _ | e
  · have hmem : (⟨v.name, v.slot, c⟩ : Assigned) ∈ g.allocation.assignment :=
      List.mem_filterMap.mpr ⟨v, hv, by rw [hc]; rfl⟩
    have := List.find?_eq_none.mp hfind _ hmem
    simp [Assigned.binding, Vertex.binding] at this
  · obtain ⟨u, hu, hassigned⟩ := List.mem_filterMap.mp (List.mem_of_find?_eq_some hfind)
    obtain ⟨d, hd, rfl⟩ := Option.map_eq_some_iff.mp hassigned
    have hfound := List.find?_some hfind
    have hkey : key u.binding = key v.binding := of_decide_eq_true hfound
    obtain rfl := List.inj_on_of_nodup_map hkeys hu hv hkey
    rw [hc, Option.some.injEq] at hd
    rw [hfind, hd]

theorem colorOfSlot?_allocation (hslots : (g.vertices.map Vertex.slot).Nodup)
    (hv : v ∈ g.vertices) {c : Nat} (hc : v.color = some c) :
    g.allocation.colorOfSlot? v.slot = some c :=
  congrArg (Option.map Assigned.color) (find?_assignment Binding.slot hslots hv hc)

end Color

section Registers

variable {t : SymbolTable} {i : Nat}

theorem bindings_colored (h : ofLiveness s t = .ok g) :
    g.colored.vertices.map Vertex.binding = t.bindings :=
  (map_colorFrom (fun _ _ => rfl) g.vertices []).trans (ofLiveness_spec h).2.1

theorem nodup_slots (h : ofLiveness s t = .ok g) :
    (g.colored.vertices.map Vertex.slot).Nodup := by
  have hslots : g.colored.vertices.map Vertex.slot = t.bindings.map Binding.slot := by
    rw [← bindings_colored h, List.map_map]
    rfl
  rw [hslots]
  exact t.ascending_slots.nodup

/-- Every slot that a node names has a vertex, and the vertex has a register. -/
theorem exists_vertex (h : ofLiveness s t = .ok g) (hx : x ∈ slotsAt s i) :
    ∃ v ∈ g.colored.vertices, v.slot = x ∧ ∃ c, v.color = some c
      ∧ g.colored.allocation.colorOfSlot? x = some c := by
  have hdeclared := (ofLiveness_spec h).1 i (lt_size_of_mem_slotsAt hx) x hx
  obtain ⟨u, hu, hslot⟩ := declares_iff.mp hdeclared
  have hmem : x ∈ g.colored.vertices.map Vertex.slot := by
    rw [colored, map_colorFrom (fun _ _ => rfl)]
    exact List.mem_map.mpr ⟨u, hu, hslot⟩
  obtain ⟨v, hv, rfl⟩ := List.mem_map.mp hmem
  obtain ⟨c, hc, -⟩ := colored_colorFrom _ _ v hv
  exact ⟨v, hv, rfl, c, hc, colorOfSlot?_allocation (nodup_slots h) hv hc⟩

theorem mem_neighbors_colored (h : ofLiveness s t = .ok g) (hv : v ∈ g.colored.vertices) :
    w ∈ v.neighbors ↔ ∃ i < f.size, v.slot ∈ s.liveOut i ∧ w ∈ s.liveOut i ∧ w ≠ v.slot := by
  have hmem : (v.slot, v.neighbors) ∈ g.vertices.map fun v => (v.slot, v.neighbors) := by
    rw [← map_colorFrom (fun _ _ => rfl) g.vertices []]
    exact List.mem_map.mpr ⟨v, hv, rfl⟩
  obtain ⟨u, hu, heq⟩ := List.mem_map.mp hmem
  obtain ⟨hslot, hneighbors⟩ := Prod.mk.inj heq
  rw [← hslot, ← hneighbors]
  exact (ofLiveness_spec h).2.2 u hu w

theorem color_ne_of_neighbor (h : ofLiveness s t = .ok g) {u : Vertex}
    (hu : u ∈ g.colored.vertices) (hv : v ∈ g.colored.vertices) (huv : u.slot ∈ v.neighbors) :
    u.color ≠ v.color := by
  obtain ⟨i, hi, hvi, hui, hne⟩ := (mem_neighbors_colored h hv).mp huv
  refine color_ne g (fun w hw hself => ?_) hu hv huv ?_
  · obtain ⟨-, -, -, -, hself⟩ := (mem_neighbors_colored h hw).mp hself
    exact hself rfl
  · exact (mem_neighbors_colored h hu).mpr ⟨i, hi, hui, hvi, hne.symm⟩

/-- Slots that are live after one node have different registers. -/
theorem colorOfSlot?_ne (h : ofLiveness s t = .ok g) {y : Slot} (hx : x ∈ s.liveOut i)
    (hy : y ∈ s.liveOut i) (hne : x ≠ y) :
    g.colored.allocation.colorOfSlot? x ≠ g.colored.allocation.colorOfSlot? y := by
  have hi := lt_size_of_mem_slotsAt (mem_slotsAt_of_mem_liveOut hx)
  obtain ⟨u, hu, rfl, c, hc, hcolor⟩ := exists_vertex h (mem_slotsAt_of_mem_liveOut hx)
  obtain ⟨v, hv, rfl, d, hd, hcolor'⟩ := exists_vertex h (mem_slotsAt_of_mem_liveOut hy)
  rw [hcolor, hcolor', ← hc, ← hd]
  exact color_ne_of_neighbor h hu hv ((mem_neighbors_colored h hv).mpr ⟨i, hi, hy, hx, hne⟩)

theorem isValidColoring_colored (h : ofLiveness s t = .ok g) :
    g.colored.isValidColoring = true := by
  unfold isValidColoring
  rw [List.all_eq_true]
  intro v hv
  obtain ⟨c, hc, -⟩ := colored_colorFrom _ _ v hv
  rw [Bool.and_eq_true, hc, List.all_eq_true]
  refine ⟨rfl, fun w hw => ?_⟩
  rcases hu : g.colored.vertex? w with _ | u
  · rfl
  · have hmem := List.mem_of_find?_eq_some hu
    obtain rfl : u.slot = w := by simpa using List.find?_some hu
    have hcolor := color_ne_of_neighbor h hmem hv (OrdSet.mem_toList.mp hw)
    rw [hc] at hcolor
    simpa using hcolor

end Registers

end InterferenceGraph

theorem BlockGraph.allocate_ok {b : BlockGraph} {t : SymbolTable} {a : Allocated}
    (h : b.allocate t = .ok a) :
    ∃ g, InterferenceGraph.ofLiveness b.flowGraph.solved.1 t = .ok g
      ∧ a = ⟨b.flowGraph, b.flowGraph.solved.1, g.colored, g.colored.allocation⟩ := by
  simp only [allocate] at h
  split at h
  · rename_i g hg
    exact ⟨g, hg, (Except.ok.inj h).symm⟩
  · simp at h

end SlotColoring
