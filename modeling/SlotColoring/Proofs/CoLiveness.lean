import Mathlib.Data.Prod.Lex
import SlotColoring.Proofs.Conflicts

/-!
# Interference is being live together

The vertices keep the order of the symbol table, so a slot has at most one vertex and it is found
(`vertex?_eq_some_iff`).  Whatever the live sets are, two slots interfere exactly if they differ and
are live after one node (`interferes_iff`), and the edges list each such pair once: the vertices
ascend, and so do the neighbours of each of them (`pairwise_edges`).
-/

namespace SlotColoring

namespace InterferenceGraph

variable {f : FlowGraph} {s : Liveness f} {t : SymbolTable} {g : InterferenceGraph} {v : Vertex}
  {a b : Slot}

/-- The vertices stand in ascending order of their slots. -/
def Ordered (g : InterferenceGraph) : Prop := g.vertices.Pairwise fun u v => u.slot < v.slot

theorem ordered_ofLiveness (h : ofLiveness s t = .ok g) : g.Ordered := by
  have hbindings := t.ascending
  rw [← (ofLiveness_spec h).2.1, List.pairwise_map] at hbindings
  exact hbindings

theorem Ordered.eq_of_slot_eq (h : g.Ordered) {u : Vertex} (hu : u ∈ g.vertices)
    (hv : v ∈ g.vertices) (hslot : u.slot = v.slot) : u = v := by
  have hslots : Ascending (g.vertices.map Vertex.slot) := List.pairwise_map.mpr h
  exact List.inj_on_of_nodup_map hslots.nodup hu hv hslot

theorem Ordered.vertex?_eq_some_iff (h : g.Ordered) :
    g.vertex? a = some v ↔ v ∈ g.vertices ∧ v.slot = a := by
  constructor
  · intro hfind
    exact ⟨List.mem_of_find?_eq_some hfind, by simpa using List.find?_some hfind⟩
  · rintro ⟨hv, rfl⟩
    rcases hfind : g.vertex? v.slot with _ | u
    · simpa using List.find?_eq_none.mp hfind v hv
    · have hslot : u.slot = v.slot := by simpa using List.find?_some hfind
      rw [h.eq_of_slot_eq (List.mem_of_find?_eq_some hfind) hv hslot]

theorem Ordered.interferes_iff_mem (h : g.Ordered) :
    g.interferes a b = true ↔ ∃ v ∈ g.vertices, v.slot = a ∧ b ∈ v.neighbors := by
  simp only [interferes, Option.any_eq_true, h.vertex?_eq_some_iff, decide_eq_true_eq, and_assoc]

theorem interferes_iff (h : ofLiveness s t = .ok g) :
    g.interferes a b = true ↔ a ≠ b ∧ ∃ i < f.size, a ∈ s.liveOut i ∧ b ∈ s.liveOut i := by
  obtain ⟨hnamed, -, hneighbors⟩ := ofLiveness_spec h
  rw [(ordered_ofLiveness h).interferes_iff_mem]
  constructor
  · rintro ⟨v, hv, rfl, hb⟩
    obtain ⟨i, hi, hvi, hbi, hne⟩ := (hneighbors v hv b).mp hb
    exact ⟨hne.symm, i, hi, hvi, hbi⟩
  · rintro ⟨hne, i, hi, ha, hb⟩
    have hdeclared := hnamed i hi a (mem_slotsAt_of_mem_liveOut ha)
    obtain ⟨v, hv, rfl⟩ := declares_iff.mp hdeclared
    exact ⟨v, hv, rfl, (hneighbors v hv b).mpr ⟨i, hi, ha, hb, hne.symm⟩⟩

theorem Ordered.mem_edges (h : g.Ordered) :
    (a, b) ∈ g.edges ↔ a < b ∧ g.interferes a b = true := by
  rw [h.interferes_iff_mem, edges, List.mem_flatMap]
  constructor
  · rintro ⟨v, hv, hmem⟩
    obtain ⟨w, hw, heq⟩ := List.mem_map.mp hmem
    obtain ⟨rfl, rfl⟩ := Prod.mk.inj heq
    obtain ⟨hw, hlt⟩ := List.mem_filter.mp hw
    exact ⟨of_decide_eq_true hlt, v, hv, rfl, hw⟩
  · rintro ⟨hlt, v, hv, rfl, hb⟩
    exact ⟨v, hv, List.mem_map.mpr ⟨b, List.mem_filter.mpr ⟨hb, decide_eq_true hlt⟩, rfl⟩⟩

theorem Ordered.pairwise_edges (h : g.Ordered) :
    g.edges.Pairwise (Prod.Lex (· < ·) (· < ·)) := by
  rw [edges, List.pairwise_flatMap]
  refine ⟨fun v _ => ?_, ?_⟩
  · rw [List.pairwise_map]
    exact (v.neighbors.ascending.filter _).imp fun hlt => Prod.Lex.right _ hlt
  · refine h.imp fun {u v} hlt e he e' he' => ?_
    obtain ⟨w, -, rfl⟩ := List.mem_map.mp he
    obtain ⟨w', -, rfl⟩ := List.mem_map.mp he'
    exact Prod.Lex.left _ _ hlt

theorem Ordered.nodup_edges (h : g.Ordered) : g.edges.Nodup := by
  refine h.pairwise_edges.imp fun {e e'} hlt heq => ?_
  rw [heq, Prod.lex_def] at hlt
  rcases hlt with hlt | ⟨-, hlt⟩
  · exact StrictTotal.irrefl _ hlt
  · exact StrictTotal.irrefl _ hlt

end InterferenceGraph

/-- For any live sets, two slots interfere exactly if they differ and are live after one node; the
edges are the interfering pairs in ascending order, each once; and the vertices are the bindings of
the symbol table in ascending order. -/
theorem interference_exact {f : FlowGraph} {s : Liveness f} {t : SymbolTable}
    {g : InterferenceGraph} (h : InterferenceGraph.ofLiveness s t = .ok g) :
    (∀ a b, g.interferes a b = true ↔
        a ≠ b ∧ ∃ i < f.size, a ∈ s.liveOut i ∧ b ∈ s.liveOut i)
      ∧ (∀ a b, g.interferes a b = g.interferes b a)
      ∧ (∀ a, g.interferes a a = false)
      ∧ (∀ a b, (a, b) ∈ g.edges ↔ a < b ∧ g.interferes a b = true)
      ∧ g.edges.Nodup
      ∧ g.edges.Pairwise (Prod.Lex (· < ·) (· < ·))
      ∧ g.vertices.map (fun v => (⟨v.name, v.slot⟩ : Binding)) = t.bindings
      ∧ g.vertices.Pairwise fun u v => u.slot < v.slot := by
  have hordered := InterferenceGraph.ordered_ofLiveness h
  have hinterferes : ∀ a b, g.interferes a b = true ↔ _ := fun a b =>
    InterferenceGraph.interferes_iff h
  refine ⟨hinterferes, fun a b => ?_, fun a => ?_, fun a b => hordered.mem_edges,
    hordered.nodup_edges, hordered.pairwise_edges, (InterferenceGraph.ofLiveness_spec h).2.1,
    hordered⟩
  · rw [Bool.eq_iff_iff, hinterferes, hinterferes, ne_comm]
    simp only [and_comm (a := a ∈ _)]
  · rw [← Bool.not_eq_true, hinterferes]
    exact fun hself => hself.1 rfl

theorem Slot.last_lt_total : 65535 < Slot.total := by decide

/-- Three variables far apart, declared out of order. -/
def scatteredSymbols : SymbolTable :=
  ((((∅ : SymbolTable).declareAt "far" ⟨65535, Slot.last_lt_total⟩).1.declareAt "one"
    ⟨1, Slot.one_lt_total⟩).1.declareAt "two" ⟨2, Slot.two_lt_total⟩).1

/-- Three nodes without edges, which read and write nothing. -/
def threeNodes : FlowGraph := ⟨#[⟨0, none, none, ∅⟩, ⟨1, none, none, ∅⟩, ⟨2, none, none, ∅⟩]⟩

/-- Live sets that no analysis would find. -/
def scatteredSets : Liveness threeNodes :=
  let far : Slot := ⟨65535, Slot.last_lt_total⟩
  let two : Slot := ⟨2, Slot.two_lt_total⟩
  ⟨#v[⟨∅, .ofList [two, far]⟩, ⟨∅, .singleton two⟩, ⟨∅, .ofList [far, ⟨1, Slot.one_lt_total⟩]⟩]⟩

theorem interference_exact_scattered :
    ∃ g, InterferenceGraph.ofLiveness scatteredSets scatteredSymbols = .ok g
      ∧ g.edges.map (fun e => (e.1.index, e.2.index)) = [(1, 65535), (2, 65535)]
      ∧ (∀ a b, g.interferes a b = true ↔ a ≠ b
          ∧ ∃ i < threeNodes.size, a ∈ scatteredSets.liveOut i ∧ b ∈ scatteredSets.liveOut i)
      ∧ (∀ a b, (a, b) ∈ g.edges ↔ a < b ∧ g.interferes a b = true)
      ∧ g.vertices.map (fun v => (⟨v.name, v.slot⟩ : Binding)) = scatteredSymbols.bindings := by
  have hg : InterferenceGraph.ofLiveness scatteredSets scatteredSymbols = .ok _ := rfl
  obtain ⟨hinterferes, -, -, hedges, -, -, hvertices, -⟩ := interference_exact hg
  exact ⟨_, hg, by decide, hinterferes, hedges, hvertices⟩

end SlotColoring
