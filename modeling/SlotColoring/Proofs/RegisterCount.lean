import Mathlib.Data.List.MinMax
import Mathlib.Data.List.Perm.Subperm
import SlotColoring.Proofs.FirstFit
import SlotColoring.Proofs.Machine
import SlotColoring.Proofs.SweepOrder

/-!
# How many registers are used

The slots that are live after one node are given different registers, so there are at least as many
registers (`size_liveOut_le`).  The vertex with the highest register passed over all the lower ones,
each because a neighbour has it, so it has almost as many neighbours
(`Ordered.exists_registers_le`).  There are no more registers than variables, and no more variables
than slots: no register is beyond 65536, and a counter of 32 bits comes to it without wrapping round
(`Counts`).
-/

namespace SlotColoring

/-- Counting up from `c` in 32 bits comes to `d`, the first number that is not taken, and does not
wrap round on the way. -/
inductive Counts (taken : OrdSet Nat) : UInt32 → UInt32 → Prop
  | found {c : UInt32} : c.toNat ∉ taken → Counts taken c c
  | next {c d : UInt32} : c.toNat ∈ taken → c.toNat + 1 < UInt32.size → Counts taken (c + 1) d →
      Counts taken c d

section Lists

variable {taken : OrdSet Nat}

theorem OrdSet.size_ofList_le (l : List Nat) : (OrdSet.ofList l).size ≤ l.length :=
  ((OrdSet.ascending _).nodup.subperm fun _ hc => OrdSet.mem_ofList.mp hc).length_le

theorem Counts.of_taken : ∀ (k : Nat) {c : UInt32}, c.toNat + k < UInt32.size →
    (∀ n, c.toNat ≤ n → n < c.toNat + k → n ∈ taken) → c.toNat + k ∉ taken →
    ∃ d : UInt32, d.toNat = c.toNat + k ∧ Counts taken c d
  | 0, c, _, _, hfree => ⟨c, rfl, .found hfree⟩
  | k + 1, c, hsize, htaken, hfree => by
    have hstep : (c + 1).toNat = c.toNat + 1 := by
      rw [UInt32.toNat_add, UInt32.toNat_one]
      exact Nat.mod_eq_of_lt (by unfold UInt32.size at hsize; omega)
    have hadd : c.toNat + (k + 1) = (c + 1).toNat + k := by omega
    rw [hadd] at hsize hfree ⊢
    obtain ⟨d, hd, hcounts⟩ := Counts.of_taken k hsize
      (fun n hn hlt => htaken n (by omega) (by omega)) hfree
    exact ⟨d, hd, .next (htaken _ (Nat.le_refl _) (by omega)) (by omega) hcounts⟩

theorem exists_counts_firstGap (hfree : firstGap 1 taken.toList ∉ taken)
    (hsize : firstGap 1 taken.toList < UInt32.size) :
    ∃ d : UInt32, d.toNat = firstGap 1 taken.toList ∧ Counts taken 1 d := by
  have hpos := le_firstGap 1 taken.toList
  have hgap : (1 : UInt32).toNat + (firstGap 1 taken.toList - 1) = firstGap 1 taken.toList := by
    rw [UInt32.toNat_one]
    omega
  rw [← hgap]
  refine Counts.of_taken _ (by rwa [hgap]) (fun n hn hlt => ?_) (by rwa [hgap])
  rw [hgap] at hlt
  exact mem_of_lt_firstGap hn hlt

end Lists

namespace InterferenceGraph

variable {f : FlowGraph} {s : Liveness f} {t : SymbolTable} {g : InterferenceGraph} {v : Vertex}

theorem size_liveOut_le (h : ofLiveness s t = .ok g) (i : Nat) :
    (s.liveOut i).size ≤ g.colored.allocation.registers := by
  have hnodup : ((s.liveOut i).toList.map g.colored.allocation.colorOfSlot?).Nodup := by
    refine List.Nodup.map_on (fun x hx y hy heq => ?_) (s.liveOut i).ascending.nodup
    by_contra hne
    exact colorOfSlot?_ne h hx hy hne heq
  have hsub : (s.liveOut i).toList.map g.colored.allocation.colorOfSlot?
      ⊆ (List.range' 1 g.colored.allocation.registers).map some := by
    intro o ho
    obtain ⟨x, hx, rfl⟩ := List.mem_map.mp ho
    obtain ⟨v, hv, -, c, hc, hcolor⟩ := exists_vertex h (mem_slotsAt_of_mem_liveOut hx)
    obtain ⟨hpos, hle⟩ := (ordered_ofLiveness h).exists_color_iff.mp ⟨v, hv, hc⟩
    exact List.mem_map.mpr ⟨c, List.mem_range'_1.mpr ⟨hpos, by omega⟩, hcolor.symm⟩
  have hlen := (hnodup.subperm hsub).length_le
  rwa [List.length_map, List.length_map, List.length_range'] at hlen

theorem registers_le_size (h : ofLiveness s t = .ok g) :
    g.colored.allocation.registers ≤ t.size :=
  calc g.colored.allocation.registers
    _ ≤ (g.colored.vertices.filterMap Vertex.color).length := OrdSet.size_ofList_le _
    _ ≤ g.colored.vertices.length := List.length_filterMap_le _ _
    _ = t.size := by rw [SymbolTable.size, ← bindings_colored h, List.length_map]

theorem Ordered.registers_pos (h : g.Ordered) (hv : v ∈ g.colored.vertices) :
    1 ≤ g.colored.allocation.registers := by
  obtain ⟨c, hc, hpos⟩ := colored_colorFrom _ _ v hv
  have hle := (h.exists_color_iff.mp ⟨v, hv, hc⟩).2
  omega

/-- The vertex with the highest register has a neighbour for each of the lower ones. -/
theorem Ordered.exists_registers_le (h : g.Ordered) (hv : v ∈ g.colored.vertices) :
    ∃ u ∈ g.colored.vertices, g.colored.allocation.registers ≤ u.neighbors.size + 1 := by
  have hpos := h.registers_pos hv
  obtain ⟨u, hu, hcolor⟩ := h.exists_color_iff.mpr ⟨hpos, Nat.le_refl _⟩
  have hsub : List.range' 1 (g.colored.allocation.registers - 1)
      ⊆ u.neighbors.toList.filterMap fun w => (g.colored.vertex? w).bind Vertex.color := by
    intro d hd
    obtain ⟨hd, hlt⟩ := List.mem_range'_1.mp hd
    obtain ⟨w, hw, hslot, hwcolor⟩ := h.exists_neighbor hu hcolor hd (by omega)
    refine List.mem_filterMap.mpr ⟨w.slot, hslot, ?_⟩
    rw [h.colored.vertex?_eq_some_iff.mpr ⟨hw, rfl⟩, Option.bind_some, hwcolor]
  have hnodup : (List.range' 1 (g.colored.allocation.registers - 1)).Nodup := List.nodup_range'
  have hlen := (hnodup.subperm hsub).length_le
  rw [List.length_range'] at hlen
  have hcount := List.length_filterMap_le (fun w => (g.colored.vertex? w).bind Vertex.color)
    u.neighbors.toList
  refine ⟨u, hu, ?_⟩
  unfold OrdSet.size
  omega

theorem exists_isGreatest_degree (hv : v ∈ g.vertices) :
    ∃ d, IsGreatest {n | ∃ u ∈ g.vertices, u.neighbors.size = n} d := by
  rcases hmax : g.vertices.argmax fun u => u.neighbors.size with _ | m
  · rw [List.argmax_eq_none.mp hmax] at hv
    exact absurd hv List.not_mem_nil
  · refine ⟨m.neighbors.size, ⟨m, List.argmax_mem hmax, rfl⟩, ?_⟩
    rintro n ⟨u, hu, rfl⟩
    have hle := List.le_of_mem_argmax hu hmax
    exact hle

/-- The register of a vertex is found by counting in 32 bits. -/
theorem exists_counts (h : ofLiveness s t = .ok g) (hv : v ∈ g.colored.vertices) :
    ∃ c : UInt32, v.color = some c.toNat ∧ 1 ≤ c.toNat ∧ c.toNat ≤ 65536
      ∧ Counts (takenBy (g.colored.below v) v) 1 c := by
  have hordered := ordered_ofLiveness h
  have hcolor := hordered.color_eq hv
  obtain ⟨hpos, hle⟩ := hordered.exists_color_iff.mp ⟨v, hv, hcolor⟩
  have hsize := registers_le_size h
  have htotal := t.size_le
  unfold Slot.total at htotal
  obtain ⟨c, hc, hcounts⟩ := exists_counts_firstGap
    (firstGap_not_mem_takenBy (g.colored_below v) v) (by unfold UInt32.size; omega)
  rw [← hc] at hcolor hpos hle
  exact ⟨c, hcolor, hpos, by omega, hcounts⟩

end InterferenceGraph

/-- The number of registers is at least that of the slots live after any node, at most one more than
the greatest number of neighbours, at most the number of variables, and zero only without variables.
Each register is between 1 and 65536, and is found by a counter of 32 bits that does not wrap. -/
theorem register_bounds {b : BlockGraph} {t : SymbolTable} {a : Allocated}
    (h : b.allocate t = .ok a) :
    (∀ i, (a.live.liveOut i).size ≤ a.allocation.registers)
      ∧ (t.bindings ≠ [] → ∃ d,
          IsGreatest {n | ∃ v ∈ a.interference.vertices, v.neighbors.size = n} d
            ∧ a.allocation.registers ≤ d + 1)
      ∧ a.allocation.registers ≤ t.size
      ∧ (a.allocation.registers = 0 ↔ t.bindings = [])
      ∧ ∀ v ∈ a.interference.vertices, ∃ c : UInt32, v.color = some c.toNat
          ∧ a.allocation.colorOfSlot? v.slot = some c.toNat ∧ 1 ≤ c.toNat ∧ c.toNat ≤ 65536
          ∧ Counts (InterferenceGraph.takenBy (a.interference.below v) v) 1 c := by
  obtain ⟨g, hg, rfl⟩ := BlockGraph.allocate_ok h
  have hordered := InterferenceGraph.ordered_ofLiveness hg
  have hsize := InterferenceGraph.registers_le_size hg
  have hvertex : t.bindings ≠ [] → ∃ v, v ∈ g.colored.vertices := by
    intro hne
    rw [← InterferenceGraph.bindings_colored hg] at hne
    exact List.exists_mem_of_ne_nil _ fun hnil => hne (by rw [hnil]; rfl)
  refine ⟨InterferenceGraph.size_liveOut_le hg, fun hne => ?_, hsize, ⟨fun hzero => ?_, ?_⟩,
    fun v hv => ?_⟩
  · obtain ⟨v, hv⟩ := hvertex hne
    obtain ⟨d, hd⟩ := InterferenceGraph.exists_isGreatest_degree hv
    obtain ⟨u, hu, hle⟩ := hordered.exists_registers_le hv
    exact ⟨d, hd, hle.trans (Nat.succ_le_succ (hd.2 ⟨u, hu, rfl⟩))⟩
  · by_contra hne
    obtain ⟨v, hv⟩ := hvertex hne
    have hpos := hordered.registers_pos hv
    simp only at hzero
    omega
  · intro hnil
    rw [SymbolTable.size, hnil] at hsize
    exact Nat.le_zero.mp hsize
  · obtain ⟨c, hc, hpos, hle, hcounts⟩ := InterferenceGraph.exists_counts hg hv
    have hslots := InterferenceGraph.nodup_slots hg
    have hfound := InterferenceGraph.colorOfSlot?_allocation hslots hv hc
    exact ⟨c, hc, hfound, hpos, hle, hcounts⟩

/-- Both variables are live in the loop, so that both bounds are met, and the second variable has to
pass over the register of the first. -/
theorem register_bounds_readingLoop : ∃ g a, BlockGraph.build .blank readingLoop = .ok g
    ∧ g.allocate deadStoreSymbols = .ok a
    ∧ (a.live.liveOut 1).size = 2 ∧ a.allocation.registers = 2
    ∧ (∀ i, (a.live.liveOut i).size ≤ a.allocation.registers)
    ∧ (∃ d, IsGreatest {n | ∃ v ∈ a.interference.vertices, v.neighbors.size = n} d
        ∧ a.allocation.registers ≤ d + 1)
    ∧ a.allocation.registers ≤ deadStoreSymbols.size
    ∧ ∃ v ∈ a.interference.vertices, v.color = some 2
        ∧ Counts (InterferenceGraph.takenBy (a.interference.below v) v) 1 2 := by
  obtain ⟨g, a, hb, ha, hlive, hregisters, v, hv, hcolor⟩ := exists_allocated readingLoop
    deadStoreSymbols (fun a => (a.live.liveOut 1).size = 2 ∧ a.allocation.registers = 2
      ∧ ∃ v ∈ a.interference.vertices, v.color = some 2) (by decide +kernel)
  obtain ⟨hlower, hdegree, hsize, -, hcolors⟩ := register_bounds ha
  obtain ⟨c, hc, -, -, -, hcounts⟩ := hcolors v hv
  rw [hcolor, Option.some.injEq] at hc
  obtain rfl : 2 = c := UInt32.toNat_inj.mp hc
  exact ⟨g, a, hb, ha, hlive, hregisters, hlower, hdegree (List.cons_ne_nil _ _), hsize, v, hv,
    hcolor, hcounts⟩

end SlotColoring
