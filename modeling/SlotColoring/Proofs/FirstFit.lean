import Mathlib.Order.Bounds.Defs
import SlotColoring.Proofs.CoLiveness

/-!
# Registers are given out first fit

The colouring looks at nothing but the names, slots and neighbours of the vertices, so it does not
matter which registers they had before (`colored_congr`).  Each vertex gets the first register that
none of its neighbours with lower slots has (`Ordered.color_eq`): the vertices ascend, so those are
the neighbours that had one when its turn came.  A register that was passed over belongs to such a
neighbour, and so the registers in use have no gap (`Ordered.exists_color_iff`).
-/

namespace SlotColoring

/-- The vertex without its register. -/
def Vertex.uncolored (v : Vertex) : Vertex := { v with color := none }

/-- A list that ascends from `c` on and leaves nothing out. -/
theorem Ascending.eq_range' : ∀ {l : List Nat} {c : Nat}, Ascending l → (∀ d ∈ l, c ≤ d) →
    (∀ d ∈ l, ∀ e, c ≤ e → e < d → e ∈ l) → l = List.range' c l.length
  | [], _, _, _, _ => rfl
  | d :: l, c, h, hle, hfull => by
    obtain ⟨hd, hl⟩ := List.pairwise_cons.mp h
    have hcd := hle d List.mem_cons_self
    obtain rfl : d = c := by
      by_contra hne
      rcases List.mem_cons.mp (hfull d List.mem_cons_self c (Nat.le_refl c) (by omega)) with hc | hc
      · exact hne hc.symm
      · have := hd c hc
        omega
    have ih : l = List.range' (d + 1) l.length := by
      refine Ascending.eq_range' hl hd fun a ha e hde hea => ?_
      rcases List.mem_cons.mp (hfull a (List.mem_cons_of_mem _ ha) e (by omega) hea) with rfl | he
      · omega
      · exact he
    rw [List.length_cons, List.range'_succ, ← ih]

namespace InterferenceGraph

variable {f : FlowGraph} {s : Liveness f} {t : SymbolTable} {g g' : InterferenceGraph}
  {u v : Vertex}

/-- The graph with other registers on its vertices. -/
def painted (g : InterferenceGraph) (paint : Slot → Option Nat) : InterferenceGraph :=
  ⟨g.vertices.map fun v => { v with color := paint v.slot }⟩

/-- The vertices with lower slots. -/
def below (g : InterferenceGraph) (v : Vertex) : List Vertex :=
  g.vertices.filter fun u => u.slot < v.slot

theorem mem_below : u ∈ g.below v ↔ u ∈ g.vertices ∧ u.slot < v.slot := by
  simp [below]

section Recoloring

theorem colorFrom_congr {vs ws : List Vertex} (done : List Vertex)
    (h : vs.map Vertex.uncolored = ws.map Vertex.uncolored) :
    colorFrom done vs = colorFrom done ws := by
  induction vs generalizing ws done with
  | nil => rw [List.map_eq_nil_iff.mp h.symm]
  | cons v vs ih =>
    cases ws with
    | nil => simp at h
    | cons w ws =>
      obtain ⟨hvw, hrest⟩ := List.cons.inj h
      have hcolor : ∀ c, ({ v with color := c } : Vertex) = { w with color := c } := fun c =>
        congrArg (fun u : Vertex => { u with color := c }) hvw
      have htaken : takenBy done v = takenBy done w := by
        have hneighbors : v.neighbors = w.neighbors := (congrArg Vertex.neighbors hvw :)
        rw [takenBy, takenBy, hneighbors]
      simp only [colorFrom, hcolor, htaken, ih _ hrest]

theorem colored_congr
    (h : g.vertices.map Vertex.uncolored = g'.vertices.map Vertex.uncolored) :
    g.colored = g'.colored :=
  congrArg mk (colorFrom_congr [] h)

theorem uncolored_colored (g : InterferenceGraph) :
    g.colored.vertices.map Vertex.uncolored = g.vertices.map Vertex.uncolored :=
  map_colorFrom (fun _ _ => rfl) g.vertices []

theorem colored_painted (g : InterferenceGraph) (paint : Slot → Option Nat) :
    (g.painted paint).colored = g.colored := by
  refine colored_congr ?_
  rw [painted, List.map_map]
  rfl

theorem colored_colored (g : InterferenceGraph) : g.colored.colored = g.colored :=
  colored_congr g.uncolored_colored

end Recoloring

section Order

theorem Ordered.colored (h : g.Ordered) : g.colored.Ordered := by
  have hslots : Ascending (g.vertices.map Vertex.slot) := List.pairwise_map.mpr h
  rw [← map_colorFrom (fun _ _ => rfl) g.vertices []] at hslots
  exact List.pairwise_map.mp hslots

/-- The register of a vertex is settled by the vertices before it. -/
theorem color_colorFrom : ∀ (vs : List Vertex) {done before after : List Vertex} {v : Vertex},
    colorFrom done vs = before ++ v :: after →
    v.color = some (firstGap 1 (takenBy (before.reverse ++ done) v).toList)
  | [], _, _, _, _, h => by simp [colorFrom] at h
  | w :: vs, done, before, after, v, h => by
    simp only [colorFrom] at h
    cases before with
    | nil =>
      obtain ⟨rfl, -⟩ := List.cons.inj h
      rfl
    | cons u before =>
      obtain ⟨rfl, hrest⟩ := List.cons.inj h
      rw [List.reverse_cons, List.append_assoc]
      exact color_colorFrom vs hrest

theorem Ordered.mem_before (h : g.Ordered) {before after : List Vertex}
    (hsplit : g.vertices = before ++ v :: after) :
    u ∈ before ↔ u ∈ g.vertices ∧ u.slot < v.slot := by
  unfold Ordered at h
  rw [hsplit] at h ⊢
  obtain ⟨-, hafter, hbefore⟩ := List.pairwise_append.mp h
  constructor
  · exact fun hu => ⟨List.mem_append_left _ hu, hbefore u hu v List.mem_cons_self⟩
  · rintro ⟨hu, hlt⟩
    rcases List.mem_append.mp hu with hu | hu
    · exact hu
    · rcases List.mem_cons.mp hu with rfl | hu
      · exact absurd hlt (StrictTotal.irrefl _)
      · have hgt := (List.pairwise_cons.mp hafter).1 u hu
        exact absurd (StrictTotal.trans hlt hgt) (StrictTotal.irrefl _)

/-- The register of a vertex is the first that no neighbour with a lower slot has. -/
theorem Ordered.color_eq (h : g.Ordered) (hv : v ∈ g.colored.vertices) :
    v.color = some (firstGap 1 (takenBy (g.colored.below v) v).toList) := by
  obtain ⟨before, after, hsplit⟩ := List.append_of_mem hv
  have htaken : takenBy (before.reverse ++ []) v = takenBy (g.colored.below v) v := by
    refine OrdSet.ext_mem fun c => ?_
    simp only [mem_takenBy, mem_below, List.append_nil, List.mem_reverse,
      h.colored.mem_before hsplit]
  rw [← htaken]
  exact color_colorFrom g.vertices hsplit

theorem colored_below (g : InterferenceGraph) (v : Vertex) : Colored (g.colored.below v) :=
  fun u hu => colored_colorFrom g.vertices [] u (mem_below.mp hu).1

theorem Ordered.isLeast_color (h : g.Ordered) (hv : v ∈ g.colored.vertices) :
    ∃ c, v.color = some c ∧ IsLeast {d | 1 ≤ d ∧ ∀ u ∈ g.colored.vertices, u.slot < v.slot →
      u.slot ∈ v.neighbors → u.color ≠ some d} c := by
  refine ⟨_, h.color_eq hv, ⟨le_firstGap 1 _, fun u hu hlt hslot => ?_⟩, fun d hd => ?_⟩
  · exact firstGap_takenBy_ne (g.colored_below v) (mem_below.mpr ⟨hu, hlt⟩) hslot
  · obtain ⟨hpos, hfree⟩ := hd
    by_contra hlt
    obtain ⟨u, hu, hslot, hcolor⟩ := mem_takenBy.mp (mem_of_lt_firstGap hpos (not_le.mp hlt))
    obtain ⟨hmem, hlower⟩ := mem_below.mp hu
    exact hfree u hmem hlower hslot hcolor

/-- A register that a vertex passed over belongs to a neighbour. -/
theorem Ordered.exists_neighbor (h : g.Ordered) (hv : v ∈ g.colored.vertices) {c d : Nat}
    (hc : v.color = some c) (hd : 1 ≤ d) (hdc : d < c) :
    ∃ u ∈ g.colored.vertices, u.slot ∈ v.neighbors ∧ u.color = some d := by
  rw [h.color_eq hv, Option.some.injEq] at hc
  obtain ⟨u, hu, hslot, hcolor⟩ := mem_takenBy.mp (mem_of_lt_firstGap hd (hc ▸ hdc))
  exact ⟨u, (mem_below.mp hu).1, hslot, hcolor⟩

/-- The registers in use are counted from one without a gap. -/
theorem Ordered.exists_color_iff (h : g.Ordered) {c : Nat} :
    (∃ v ∈ g.colored.vertices, v.color = some c) ↔
      1 ≤ c ∧ c ≤ g.colored.allocation.registers := by
  have hmem : ∀ {d : Nat}, d ∈ OrdSet.ofList (g.colored.vertices.filterMap Vertex.color) ↔
      ∃ v ∈ g.colored.vertices, v.color = some d := by
    intro d
    rw [OrdSet.mem_ofList, List.mem_filterMap]
  have hrange : (OrdSet.ofList (g.colored.vertices.filterMap Vertex.color)).toList
      = List.range' 1 g.colored.allocation.registers := by
    refine (OrdSet.ascending _).eq_range' (fun d hd => ?_) fun d hd e he hed => ?_
    · obtain ⟨v, hv, hcolor⟩ := hmem.mp hd
      obtain ⟨b, hb, hpos⟩ := colored_colorFrom _ _ v hv
      rw [hcolor, Option.some.injEq] at hb
      exact hb ▸ hpos
    · obtain ⟨v, hv, hcolor⟩ := hmem.mp hd
      obtain ⟨u, hu, -, hcolor'⟩ := h.exists_neighbor hv hcolor he hed
      exact hmem.mpr ⟨u, hu, hcolor'⟩
  rw [← hmem, ← OrdSet.mem_toList, hrange, List.mem_range'_1]
  omega

end Order

section Assignment

theorem bindings_assignment (g : InterferenceGraph) :
    g.colored.allocation.assignment.map Assigned.binding
      = g.vertices.map Vertex.binding := by
  have hsome : ∀ v ∈ g.colored.vertices,
      (v.color.map fun c => (⟨v.name, v.slot, c⟩ : Assigned)).map Assigned.binding
        = some v.binding := by
    intro v hv
    obtain ⟨c, hc, -⟩ := colored_colorFrom _ _ v hv
    rw [hc]
    rfl
  rw [allocation, List.map_filterMap, List.filterMap_congr hsome, List.filterMap_eq_map']
  exact map_colorFrom (fun _ _ => rfl) g.vertices []

theorem colorOf?_allocation (hnames : (g.vertices.map Vertex.name).Nodup) (hv : v ∈ g.vertices)
    {c : Nat} (hc : v.color = some c) : g.allocation.colorOf? v.name = some c :=
  congrArg (Option.map Assigned.color) (find?_assignment Binding.name hnames hv hc)

theorem nodup_names (h : ofLiveness s t = .ok g) :
    (g.colored.vertices.map Vertex.name).Nodup := by
  have hnames : g.colored.vertices.map Vertex.name = t.bindings.map Binding.name := by
    rw [← bindings_colored h, List.map_map]
    rfl
  rw [hnames, List.Nodup, List.pairwise_map]
  exact t.distinct

theorem exists_vertex_of_slot? (h : ofLiveness s t = .ok g) {x : String} {a : Slot}
    (hx : t.slot? x = some a) : ∃ v ∈ g.colored.vertices, v.name = x ∧ v.slot = a := by
  rw [SymbolTable.slot?_eq_some_iff, ← bindings_colored h] at hx
  obtain ⟨v, hv, hbinding⟩ := List.mem_map.mp hx
  obtain ⟨hname, hslot⟩ := Binding.mk.inj hbinding
  exact ⟨v, hv, hname, hslot⟩

theorem ascending_assignment (h : ofLiveness s t = .ok g) :
    g.colored.allocation.assignment.Pairwise fun x y => x.slot < y.slot := by
  have hbindings := t.ascending
  rw [← (ofLiveness_spec h).2.1, ← g.bindings_assignment, List.pairwise_map] at hbindings
  exact hbindings

theorem mem_neighbors_iff (h : ofLiveness s t = .ok g) (hv : v ∈ g.colored.vertices) {w : Slot} :
    w ∈ v.neighbors ↔ g.interferes v.slot w = true := by
  rw [mem_neighbors_colored h hv, interferes_iff h]
  constructor
  · rintro ⟨i, hi, hvi, hwi, hne⟩
    exact ⟨hne.symm, i, hi, hvi, hwi⟩
  · rintro ⟨hne, i, hi, hvi, hwi⟩
    exact ⟨i, hi, hvi, hwi, hne.symm⟩

end Assignment

end InterferenceGraph

/-- How the vertices of the interference graph `built` over the bindings of `t` are coloured. -/
structure GreedilyColored (t : SymbolTable) (built g : InterferenceGraph) : Prop where
  first_fit : ∀ v ∈ g.vertices, ∃ c, v.color = some c ∧ IsLeast {d | 1 ≤ d ∧ ∀ u ∈ g.vertices,
    u.slot < v.slot → built.interferes v.slot u.slot = true → u.color ≠ some d} c
  valid : g.isValidColoring = true
  apart : ∀ a b, built.interferes a b = true →
    g.allocation.colorOfSlot? a ≠ g.allocation.colorOfSlot? b
  no_gap : ∀ c, (∃ v ∈ g.vertices, v.color = some c) ↔ 1 ≤ c ∧ c ≤ g.allocation.registers
  bindings : g.allocation.assignment.map Assigned.binding = t.bindings
  ascending : g.allocation.assignment.Pairwise fun x y => x.slot < y.slot
  color_of_slot : ∀ v ∈ g.vertices, g.allocation.colorOfSlot? v.slot = v.color
  /-- A declared name has a register, and it is that of its slot. -/
  color_of_name : ∀ x a, t.slot? x = some a → ∃ c, g.allocation.colorOf? x = some c
    ∧ g.allocation.colorOfSlot? a = some c
  /-- Colouring once more changes nothing. -/
  again : g.colored = g ∧ g.colored.allocation = g.allocation

/-- For any live sets, and whichever registers the vertices had before, colouring gives each
variable the first register that no interfering variable with a lower slot has. -/
theorem colored_greedily {f : FlowGraph} {s : Liveness f} {t : SymbolTable}
    {built : InterferenceGraph} (h : InterferenceGraph.ofLiveness s t = .ok built)
    (paint : Slot → Option Nat) : GreedilyColored t built (built.painted paint).colored := by
  have hordered := InterferenceGraph.ordered_ofLiveness h
  have hfound : ∀ {v : Vertex} {c : Nat}, v ∈ built.colored.vertices → v.color = some c →
      built.colored.allocation.colorOfSlot? v.slot = some c := fun hv hc =>
    InterferenceGraph.colorOfSlot?_allocation (InterferenceGraph.nodup_slots h) hv hc
  rw [InterferenceGraph.colored_painted]
  refine ⟨fun v hv => ?_, InterferenceGraph.isValidColoring_colored h, fun a b hab => ?_,
    fun c => hordered.exists_color_iff, ?_, InterferenceGraph.ascending_assignment h,
    fun v hv => ?_, fun x a hx => ?_, built.colored_colored, ?_⟩
  · simp only [← InterferenceGraph.mem_neighbors_iff h hv]
    exact hordered.isLeast_color hv
  · obtain ⟨hne, i, -, ha, hb⟩ := (InterferenceGraph.interferes_iff h).mp hab
    exact InterferenceGraph.colorOfSlot?_ne h ha hb hne
  · rw [built.bindings_assignment, (InterferenceGraph.ofLiveness_spec h).2.1]
  · obtain ⟨c, hc, -⟩ := InterferenceGraph.colored_colorFrom _ _ v hv
    rw [hfound hv hc, hc]
  · obtain ⟨v, hv, rfl, rfl⟩ := InterferenceGraph.exists_vertex_of_slot? h hx
    obtain ⟨c, hc, -⟩ := InterferenceGraph.colored_colorFrom _ _ v hv
    have hnames := InterferenceGraph.nodup_names h
    exact ⟨c, InterferenceGraph.colorOf?_allocation hnames hv hc, hfound hv hc⟩
  · rw [built.colored_colored]

/-- The two low variables share a register; the third interferes with both. -/
theorem colored_greedily_scattered :
    ∃ built, InterferenceGraph.ofLiveness scatteredSets scatteredSymbols = .ok built
      ∧ (built.painted fun _ => some 7).colored.allocation.assignment.map
          (fun x => (x.slot.index, x.color)) = [(1, 1), (2, 1), (65535, 2)]
      ∧ GreedilyColored scatteredSymbols built (built.painted fun _ => some 7).colored := by
  have hbuilt : InterferenceGraph.ofLiveness scatteredSets scatteredSymbols = .ok _ := rfl
  exact ⟨_, hbuilt, by decide, colored_greedily hbuilt fun _ => some 7⟩

end SlotColoring
