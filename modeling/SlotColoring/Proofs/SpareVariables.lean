import Mathlib.Data.List.Find
import SlotColoring.Proofs.RegisterCount
import SlotColoring.Proofs.UndeclaredSlots

/-!
# Variables that no instruction names

Whichever table the slots are declared in, they interfere by the live sets alone
(`InterferenceGraph.edges_congr`).  A slot gets the first register that none of its neighbours with
lower slots has, and these are live somewhere, so they are declared in every table for which
allocation succeeds.  Hence its register does not depend on what else is declared
(`InterferenceGraph.color_congr`).  A slot that no instruction names is live nowhere and gets the
first register (`InterferenceGraph.color_eq_one`), which is in use already if there are other
variables.
-/

namespace SlotColoring

namespace InterferenceGraph

variable {f : FlowGraph} {s : Liveness f} {t t' : SymbolTable} {g g' : InterferenceGraph}
  {v v' : Vertex}

theorem edges_colored (g : InterferenceGraph) : g.colored.edges = g.edges := by
  unfold edges
  rw [List.flatMap_def, List.flatMap_def]
  exact congrArg List.flatten (map_colorFrom (fun _ _ => rfl) g.vertices [])

theorem not_lex_of_lex {e e' : Slot × Slot} (h : Prod.Lex (· < ·) (· < ·) e e') :
    ¬ Prod.Lex (· < ·) (· < ·) e' e := by
  rw [Prod.lex_def] at h ⊢
  rintro (h' | ⟨heq', h'⟩)
  · rcases h with h | ⟨heq, -⟩
    · exact StrictTotal.irrefl _ (StrictTotal.trans h h')
    · exact StrictTotal.irrefl _ (heq ▸ h')
  · rcases h with h | ⟨-, h⟩
    · exact StrictTotal.irrefl _ (heq' ▸ h)
    · exact StrictTotal.irrefl _ (StrictTotal.trans h h')

/-- The edges depend on the live sets only. -/
theorem edges_congr (h : ofLiveness s t = .ok g) (h' : ofLiveness s t' = .ok g') :
    g.edges = g'.edges := by
  have hordered := ordered_ofLiveness h
  have hordered' := ordered_ofLiveness h'
  have hmem : ∀ e, e ∈ g.edges ↔ e ∈ g'.edges := by
    rintro ⟨a, b⟩
    rw [hordered.mem_edges, hordered'.mem_edges, interferes_iff h, interferes_iff h']
  have hperm := (List.perm_ext_iff_of_nodup hordered.nodup_edges hordered'.nodup_edges).mpr hmem
  refine hperm.eq_of_pairwise (fun e e' _ _ hlt hgt => ?_) hordered.pairwise_edges
    hordered'.pairwise_edges
  exact absurd hgt (not_lex_of_lex hlt)

/-- A register that is taken by a lower neighbour in one graph is so in the other. -/
theorem mem_takenBy_congr (h : ofLiveness s t = .ok g) (h' : ofLiveness s t' = .ok g')
    (hv : v ∈ g.colored.vertices) (hv' : v' ∈ g'.colored.vertices) (hslot : v.slot = v'.slot)
    (hlower : ∀ u ∈ g.colored.vertices, ∀ u' ∈ g'.colored.vertices, u.slot = u'.slot →
      u.slot < v.slot → u.color = u'.color)
    {c : Nat} (hc : c ∈ takenBy (g.colored.below v) v) : c ∈ takenBy (g'.colored.below v') v' := by
  obtain ⟨u, hu, hneighbor, hcolor⟩ := mem_takenBy.mp hc
  obtain ⟨humem, hlt⟩ := mem_below.mp hu
  obtain ⟨i, hi, hvi, hui, hne⟩ := (mem_neighbors_colored h hv).mp hneighbor
  obtain ⟨u', hu', huslot, -⟩ := exists_vertex h' (mem_slotsAt_of_mem_liveOut hui)
  have hcolor' := hlower u humem u' hu' huslot.symm hlt
  rw [← huslot, hslot] at hlt
  rw [hslot] at hvi hne
  rw [← huslot] at hui hne
  exact mem_takenBy.mpr ⟨u', mem_below.mpr ⟨hu', hlt⟩,
    (mem_neighbors_colored h' hv').mpr ⟨i, hi, hvi, hui, hne⟩, hcolor' ▸ hcolor⟩

/-- The register of a slot does not depend on what else is declared. -/
theorem color_congr (h : ofLiveness s t = .ok g) (h' : ofLiveness s t' = .ok g')
    {v v' : Vertex} (hv : v ∈ g.colored.vertices) (hv' : v' ∈ g'.colored.vertices)
    (hslot : v.slot = v'.slot) : v.color = v'.color := by
  -- by induction on the slot: the lower neighbours have their registers already
  have hlower : ∀ u ∈ g.colored.vertices, ∀ u' ∈ g'.colored.vertices, u.slot = u'.slot →
      u.slot < v.slot → u.color = u'.color :=
    fun u hu u' hu' huslot _ => color_congr h h' hu hu' huslot
  have hlower' : ∀ u' ∈ g'.colored.vertices, ∀ u ∈ g.colored.vertices, u'.slot = u.slot →
      u'.slot < v'.slot → u'.color = u.color := fun u' hu' u hu huslot hlt =>
    (hlower u hu u' hu' huslot.symm (by rwa [hslot, ← huslot])).symm
  have htaken : takenBy (g.colored.below v) v = takenBy (g'.colored.below v') v' :=
    OrdSet.ext_mem fun c => ⟨mem_takenBy_congr h h' hv hv' hslot hlower,
      mem_takenBy_congr h' h hv' hv hslot.symm hlower'⟩
  rw [(ordered_ofLiveness h).color_eq hv, (ordered_ofLiveness h').color_eq hv', htaken]
termination_by v.slot.index

/-- A slot that is live nowhere gets the first register. -/
theorem color_eq_one (h : ofLiveness s t = .ok g) (hv : v ∈ g.colored.vertices)
    (hdead : ∀ i, v.slot ∉ s.liveOut i) : v.color = some 1 := by
  have htaken : takenBy (g.colored.below v) v = ∅ := by
    refine OrdSet.ext_mem fun c => iff_of_false (fun hc => ?_) OrdSet.not_mem_empty
    obtain ⟨u, -, hneighbor, -⟩ := mem_takenBy.mp hc
    obtain ⟨i, -, hvi, -⟩ := (mem_neighbors_colored h hv).mp hneighbor
    exact hdead i hvi
  rw [(ordered_ofLiveness h).color_eq hv, htaken]
  rfl

theorem exists_vertex_of_mem (h : ofLiveness s t = .ok g) {b : Binding} (hb : b ∈ t.bindings) :
    ∃ v ∈ g.colored.vertices, v.binding = b := by
  rwa [← bindings_colored h, List.mem_map] at hb

theorem binding_mem (h : ofLiveness s t = .ok g) (hv : v ∈ g.colored.vertices) :
    v.binding ∈ t.bindings := by
  rw [← bindings_colored h]
  exact List.mem_map_of_mem hv

/-- The allocation shows the register of a vertex under its name and under its slot. -/
theorem colorOf_vertex (h : ofLiveness s t = .ok g) (hv : v ∈ g.colored.vertices) :
    g.colored.allocation.colorOf? v.name = v.color
      ∧ g.colored.allocation.colorOfSlot? v.slot = v.color := by
  obtain ⟨c, hc, -⟩ := colored_colorFrom _ _ v hv
  rw [hc]
  exact ⟨colorOf?_allocation (nodup_names h) hv hc, colorOfSlot?_allocation (nodup_slots h) hv hc⟩

/-- Variables whose slots are live nowhere need no register of their own. -/
theorem registers_congr (h : ofLiveness s t = .ok g) (h' : ofLiveness s t' = .ok g')
    (hkept : t.bindings ⊆ t'.bindings)
    (hdead : ∀ b ∈ t'.bindings, b ∉ t.bindings → ∀ i, b.slot ∉ s.liveOut i)
    (hne : t.bindings ≠ []) :
    g.colored.allocation.registers = g'.colored.allocation.registers := by
  have hordered := ordered_ofLiveness h
  obtain ⟨b, hb⟩ := List.exists_mem_of_ne_nil _ hne
  obtain ⟨w, hw, -⟩ := exists_vertex_of_mem h hb
  have hpos := hordered.registers_pos hw
  have hcolors : ∀ c, (∃ v ∈ g.colored.vertices, v.color = some c)
      ↔ ∃ v' ∈ g'.colored.vertices, v'.color = some c := by
    intro c
    constructor
    · rintro ⟨v, hv, hc⟩
      obtain ⟨v', hv', hbinding⟩ := exists_vertex_of_mem h' (hkept (binding_mem h hv))
      have hslot : v.slot = v'.slot := congrArg Binding.slot hbinding.symm
      exact ⟨v', hv', color_congr h h' hv hv' hslot ▸ hc⟩
    · rintro ⟨v', hv', hc⟩
      by_cases hold : v'.binding ∈ t.bindings
      · obtain ⟨v, hv, hbinding⟩ := exists_vertex_of_mem h hold
        have hslot : v.slot = v'.slot := congrArg Binding.slot hbinding
        exact ⟨v, hv, (color_congr h h' hv hv' hslot).trans hc⟩
      · rw [color_eq_one h' hv' (hdead _ (binding_mem h' hv') hold), Option.some.injEq] at hc
        exact hordered.exists_color_iff.mpr ⟨by omega, by omega⟩
  simp only [hordered.exists_color_iff, (ordered_ofLiveness h').exists_color_iff] at hcolors
  have hle := (hcolors g.colored.allocation.registers).mp ⟨hpos, Nat.le_refl _⟩
  have hge := (hcolors g'.colored.allocation.registers).mpr ⟨by omega, Nat.le_refl _⟩
  omega

end InterferenceGraph

namespace BlockGraph

variable {g : BlockGraph} {t t' : SymbolTable} {x : Slot}

/-- The second table has all variables of the first, and others only in slots that no instruction
of the graph names. -/
structure Spares (g : BlockGraph) (t t' : SymbolTable) : Prop where
  kept : t.bindings ⊆ t'.bindings
  unnamed : ∀ b ∈ t'.bindings, b ∉ t.bindings → ∀ ins ∈ g.instructions,
    ins.opcode ≠ .load b.slot ∧ ins.opcode ≠ .store b.slot

theorem Spares.not_slotAt? (h : g.Spares t t') {b : Binding} (hb : b ∈ t'.bindings)
    (hnew : b ∉ t.bindings) (i : Nat) : g.slotAt? i ≠ some b.slot := by
  intro hi
  obtain ⟨ins, hins, hop⟩ := exists_slotAt?_iff.mp ⟨i, hi⟩
  obtain ⟨hload, hstore⟩ := h.unnamed b hb hnew ins hins
  exact hop.elim hload hstore

theorem Spares.not_live (h : g.Spares t t') {b : Binding} (hb : b ∈ t'.bindings)
    (hnew : b ∉ t.bindings) (i : Nat) : b.slot ∉ g.flowGraph.solved.1.liveOut i := by
  intro hlive
  have hnames : g.Names i b.slot := Or.inr hlive
  obtain ⟨j, hj⟩ := hnames.exists_slotAt?
  exact h.not_slotAt? hb hnew j hj

/-- A slot that an instruction names has its name from the first table. -/
theorem Spares.name?_eq (h : g.Spares t t') (hx : ∃ i, g.slotAt? i = some x) :
    t.name? x = t'.name? x := by
  refine Option.ext fun y => ?_
  rw [SymbolTable.name?_eq_some_iff, SymbolTable.name?_eq_some_iff]
  refine ⟨fun hy => h.kept hy, fun hy => by_contra fun hnew => ?_⟩
  obtain ⟨i, hi⟩ := hx
  exact h.not_slotAt? hy hnew i hi

theorem exists_allocate_iff : (∃ a, g.allocate t = .ok a) ↔ ∀ e, g.allocate t ≠ .error e := by
  rcases g.allocate t with e | a
  · simp
  · simp

theorem Spares.error_iff (h : g.Spares t t') (e : UndeclaredSlot) :
    g.allocate t = .error e ↔ g.allocate t' = .error e := by
  obtain ⟨s⟩ := e
  have hfind : g.slotsNamed.find? (fun x => (t.name? x).isNone)
      = g.slotsNamed.find? fun x => (t'.name? x).isNone :=
    List.find?_congr fun x hx => by rw [h.name?_eq (mem_slotsNamed.mp hx)]
  rw [allocate_eq_error_iff, allocate_eq_error_iff, hfind]

end BlockGraph

/-- Variables in slots that no instruction names do not change the outcome of allocation, nor the
registers of the others.  They are given the first register, and there are as many registers as
without them if there are others. -/
theorem spare_variables_irrelevant {g : BlockGraph} {t t' : SymbolTable} (h : g.Spares t t') :
    ((∃ a, g.allocate t = .ok a) ↔ ∃ a', g.allocate t' = .ok a')
      ∧ (∀ e, g.allocate t = .error e ↔ g.allocate t' = .error e)
      ∧ ∀ a a', g.allocate t = .ok a → g.allocate t' = .ok a' →
          (∀ b ∈ t.bindings, ∃ c, a.allocation.colorOf? b.name = some c
              ∧ a'.allocation.colorOf? b.name = some c
              ∧ a.allocation.colorOfSlot? b.slot = some c
              ∧ a'.allocation.colorOfSlot? b.slot = some c)
            ∧ (∀ b ∈ t'.bindings, b ∉ t.bindings → a'.allocation.colorOf? b.name = some 1
              ∧ a'.allocation.colorOfSlot? b.slot = some 1)
            ∧ a.interference.edges = a'.interference.edges
            ∧ (t.bindings ≠ [] → a.allocation.registers = a'.allocation.registers) := by
  refine ⟨?_, h.error_iff, fun a a' ha ha' => ?_⟩
  · rw [BlockGraph.exists_allocate_iff, BlockGraph.exists_allocate_iff]
    simp only [ne_eq, h.error_iff]
  · obtain ⟨ig, hig, rfl⟩ := BlockGraph.allocate_ok ha
    obtain ⟨ig', hig', rfl⟩ := BlockGraph.allocate_ok ha'
    refine ⟨fun b hb => ?_, fun b hb hnew => ?_, ?_, ?_⟩
    · obtain ⟨v, hv, rfl⟩ := InterferenceGraph.exists_vertex_of_mem hig hb
      obtain ⟨v', hv', hbinding⟩ := InterferenceGraph.exists_vertex_of_mem hig' (h.kept hb)
      obtain ⟨hname, hslot⟩ := Binding.mk.inj hbinding
      obtain ⟨c, hc, -⟩ := InterferenceGraph.colored_colorFrom _ _ v hv
      have hc' := InterferenceGraph.color_congr hig hig' hv hv' hslot.symm
      obtain ⟨hbyName, hbySlot⟩ := InterferenceGraph.colorOf_vertex hig hv
      obtain ⟨hbyName', hbySlot'⟩ := InterferenceGraph.colorOf_vertex hig' hv'
      rw [← hc', hname] at hbyName'
      rw [← hc', hslot] at hbySlot'
      exact ⟨c, hbyName.trans hc, hbyName'.trans hc, hbySlot.trans hc, hbySlot'.trans hc⟩
    · obtain ⟨v, hv, rfl⟩ := InterferenceGraph.exists_vertex_of_mem hig' hb
      rw [← InterferenceGraph.color_eq_one hig' hv (h.not_live hb hnew)]
      exact InterferenceGraph.colorOf_vertex hig' hv
    · rw [InterferenceGraph.edges_colored, InterferenceGraph.edges_colored]
      exact InterferenceGraph.edges_congr hig hig'
    · exact InterferenceGraph.registers_congr hig hig' h.kept fun b hb hnew => h.not_live hb hnew

theorem Slot.zero_lt_total : 0 < Slot.total := by decide

/-- The two variables, and one more on either side of them. -/
def surroundedSymbols : SymbolTable :=
  ((deadStoreSymbols.declareAt "low" ⟨0, Slot.zero_lt_total⟩).1.declareAt "high"
    ⟨65535, Slot.last_lt_total⟩).1

theorem spare_variables_irrelevant_readingLoop : ∃ g a a',
    BlockGraph.build .blank readingLoop = .ok g ∧ g.Spares deadStoreSymbols surroundedSymbols
      ∧ g.allocate deadStoreSymbols = .ok a ∧ g.allocate surroundedSymbols = .ok a'
      ∧ a.allocation.colorOf? "j" = some 2 ∧ a'.allocation.colorOf? "j" = some 2
      ∧ a'.allocation.colorOf? "low" = some 1 ∧ a'.allocation.colorOf? "high" = some 1
      ∧ a.interference.edges = a'.interference.edges
      ∧ a.allocation.registers = 2 ∧ a'.allocation.registers = 2 := by
  obtain ⟨g, a, hb, ha, hcolor, hregisters⟩ := exists_allocated readingLoop deadStoreSymbols
    (fun a => a.allocation.colorOf? "j" = some 2 ∧ a.allocation.registers = 2) (by decide +kernel)
  have hspares : g.Spares deadStoreSymbols surroundedSymbols := by
    obtain rfl := Except.ok.inj hb
    exact ⟨by decide, by decide⟩
  obtain ⟨hok, -, hsame⟩ := spare_variables_irrelevant hspares
  obtain ⟨a', ha'⟩ := hok.mp ⟨a, ha⟩
  obtain ⟨hkept, hspare, hedges, hcount⟩ := hsame a a' ha ha'
  obtain ⟨c, hc, hc', -⟩ := hkept ⟨"j", ⟨2, Slot.two_lt_total⟩⟩ (by decide)
  have hlow := hspare ⟨"low", ⟨0, Slot.zero_lt_total⟩⟩ (by decide) (by decide)
  have hhigh := hspare ⟨"high", ⟨65535, Slot.last_lt_total⟩⟩ (by decide) (by decide)
  rw [hcolor] at hc
  rw [← hc] at hc'
  exact ⟨g, a, a', hb, hspares, ha, ha', hcolor, hc', hlow.1, hhigh.1, hedges, hregisters,
    (hcount (List.cons_ne_nil _ _)).symm.trans hregisters⟩

end SlotColoring
