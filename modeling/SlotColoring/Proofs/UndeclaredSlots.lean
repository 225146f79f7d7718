import SlotColoring.Proofs.Conflicts
import SlotColoring.Proofs.FlowEdges

/-!
# Which slot is reported as undeclared

The nodes are gone through in program order, and at each of them the slot of its instruction comes
before the slots that are live after it, which ascend.  So the slot reported is the first without a
name in a list that the graph alone determines (`BlockGraph.allocate_eq_error_iff`).  What is live
is read by some instruction, so that nothing stands in the list but what a load or store names
(`BlockGraph.mem_slotsNamed`).
-/

namespace SlotColoring

/-- The slot that an instruction names. -/
def Opcode.slot? : Opcode → Option Slot
  | .load s => some s
  | .store s => some s
  | _ => none

theorem Opcode.slot?_eq_some {op : Opcode} {s : Slot} :
    op.slot? = some s ↔ op = .load s ∨ op = .store s := by
  cases op <;> simp [slot?]

theorem Opcode.toList_slot? (op : Opcode) :
    op.slot?.toList = op.writes?.toList ++ op.reads?.toList := by
  cases op <;> rfl

/-- In an ascending list the first that satisfies `p` is the least. -/
theorem Ascending.find?_eq_some_iff {α : Type*} [LT α] [StrictTotal α] {p : α → Bool} {a : α} :
    ∀ {l : List α}, Ascending l →
      (l.find? p = some a ↔ a ∈ l ∧ p a = true ∧ ∀ b ∈ l, p b = true → b = a ∨ a < b)
  | [], _ => by simp
  | c :: l, h => by
    obtain ⟨hc, hl⟩ := List.pairwise_cons.mp h
    have ih : l.find? p = some a ↔ _ := Ascending.find?_eq_some_iff hl
    rw [List.find?_cons]
    rcases hp : p c with _ | _
    · simp only [ih, List.forall_mem_cons, hp]
      constructor
      · rintro ⟨ha, hpa, hleast⟩
        exact ⟨List.mem_cons_of_mem _ ha, hpa, by simp, hleast⟩
      · rintro ⟨ha, hpa, -, hleast⟩
        rcases List.mem_cons.mp ha with rfl | ha
        · rw [hp] at hpa
          exact absurd hpa (by simp)
        · exact ⟨ha, hpa, hleast⟩
    · simp only [Option.some.injEq]
      constructor
      · rintro rfl
        refine ⟨List.mem_cons_self, hp, fun b hb _ => ?_⟩
        rcases List.mem_cons.mp hb with rfl | hb
        · exact Or.inl rfl
        · exact Or.inr (hc b hb)
      · rintro ⟨ha, -, hleast⟩
        rcases hleast c List.mem_cons_self hp with hca | hac
        · exact hca
        · rcases List.mem_cons.mp ha with hca | ha
          · exact hca.symm
          · exact absurd (StrictTotal.trans hac (hc a ha)) (StrictTotal.irrefl a)

theorem findSome?_range_eq_some {β : Type*} {f : Nat → Option β} {b : β} : ∀ {n : Nat},
    (List.range n).findSome? f = some b ↔ ∃ i < n, f i = some b ∧ ∀ j < i, f j = none
  | 0 => by simp
  | n + 1 => by
    rw [List.range_succ, List.findSome?_append, Option.or_eq_some_iff, findSome?_range_eq_some,
      List.findSome?_eq_none_iff, List.findSome?_singleton]
    simp only [List.mem_range]
    constructor
    · rintro (⟨i, hi, hfound⟩ | ⟨hbefore, hn⟩)
      · exact ⟨i, by omega, hfound⟩
      · exact ⟨n, by omega, hn, hbefore⟩
    · rintro ⟨i, hi, hfound, hbefore⟩
      rcases Nat.lt_succ_iff_lt_or_eq.mp hi with hi | rfl
      · exact Or.inl ⟨i, hi, hfound, hbefore⟩
      · exact Or.inr ⟨hbefore, hfound⟩

namespace BlockGraph

variable {g : BlockGraph} {t : SymbolTable} {i : Nat} {x s : Slot}

/-- The slot that the instruction at a place in program order names. -/
def slotAt? (g : BlockGraph) (i : Nat) : Option Slot :=
  g.instructions[i]?.bind fun ins => ins.opcode.slot?

theorem exists_slotAt?_iff : (∃ i, g.slotAt? i = some x) ↔
    ∃ ins ∈ g.instructions, ins.opcode = .load x ∨ ins.opcode = .store x := by
  simp only [slotAt?, Option.bind_eq_some_iff, Opcode.slot?_eq_some, List.mem_iff_getElem?]
  constructor
  · rintro ⟨i, ins, hi, hx⟩
    exact ⟨ins, ⟨i, hi⟩, hx⟩
  · rintro ⟨ins, ⟨i, hi⟩, hx⟩
    exact ⟨i, ins, hi, hx⟩

/-- The nodes of a graph's flow graph are its instructions. -/
theorem nodes_flowGraph (g : BlockGraph) (i : Nat) :
    g.flowGraph.nodes[i]?.map (fun n => (n.writes, n.reads))
      = g.instructions[i]?.map fun ins => (ins.opcode.writes?, ins.opcode.reads?) := by
  by_cases hi : i < (bodies g.blocks).length
  · obtain ⟨y, n, p, ins, q, hy, hbody, rfl⟩ := exists_startsAt _ _ hi
    have hget : g.instructions[n + p.length]? = some ins := hy.getElem?_bodies hbody
    rw [getElem?_nodes hy hbody, hget]
    rfl
  · have hnode : g.flowGraph.size ≤ i := by
      rw [size_flowGraph]
      omega
    have hins : g.instructions.length ≤ i := Nat.le_of_not_lt hi
    rw [Array.getElem?_eq_none hnode, List.getElem?_eq_none hins]
    rfl

theorem toList_slotAt? (g : BlockGraph) (i : Nat) :
    (g.slotAt? i).toList = (g.flowGraph.writes? i).toList ++ (g.flowGraph.reads? i).toList := by
  have hnodes := g.nodes_flowGraph i
  unfold slotAt? FlowGraph.writes? FlowGraph.reads?
  rcases hins : g.instructions[i]? with _ | ins
  · rw [hins, Option.map_none, Option.map_eq_none_iff] at hnodes
    rw [hnodes]
    rfl
  · rw [hins, Option.map_some, Option.map_eq_some_iff] at hnodes
    obtain ⟨n, hn, heq⟩ := hnodes
    obtain ⟨hwrites, hreads⟩ := Prod.mk.inj heq
    rw [hn, Option.bind_some, Option.bind_some, Option.bind_some, hwrites, hreads,
      Opcode.toList_slot?]

end BlockGraph

namespace InterferenceGraph

variable {f : FlowGraph} {s : Liveness f} {g : InterferenceGraph} {e : UndeclaredSlot}

theorem addNode_eq_error_iff {i : Nat} : addNode s g i = .error e ↔
    (slotsAt s i).find? (fun x => !g.declares x) = some e.slot := by
  unfold addNode
  split
  · rename_i x hx
    rw [hx, Except.error.injEq, Option.some.injEq]
    exact ⟨fun h => h ▸ rfl, fun h => h ▸ rfl⟩
  · rename_i hx
    simp [hx]

/-- The nodes are gone through in order, and the first undeclared slot is the error. -/
theorem addNodes_eq_error_iff : ∀ (is : List Nat) {g : InterferenceGraph},
    addNodes s g is = .error e ↔
      (is.flatMap (slotsAt s)).find? (fun x => !g.declares x) = some e.slot
  | [], g => by simp [addNodes]
  | i :: is, g => by
    rw [List.flatMap_cons, List.find?_append, addNodes]
    rcases hnode : addNode s g i with e' | g'
    · rw [addNode_eq_error_iff.mp hnode, Option.some_or, Except.error.injEq, Option.some.injEq]
      exact ⟨fun h => h ▸ rfl, fun h => congrArg UndeclaredSlot.mk h⟩
    · obtain ⟨hnamed, rfl⟩ := addNode_ok hnode
      have hfind : (slotsAt s i).find? (fun x => !g.declares x) = none := by
        rw [List.find?_eq_none]
        intro x hx
        simp [hnamed x hx]
      have hdeclares : (g.interfere (s.liveOut i)).declares = g.declares :=
        funext fun x => declares_congr (bindings_interfere g _)
      rw [hfind, Option.none_or]
      exact hdeclares ▸ addNodes_eq_error_iff is

theorem declares_ofSymbols (t : SymbolTable) (x : Slot) :
    (ofSymbols t).declares x = (t.name? x).isSome := by
  rw [declares, vertex?, ofSymbols, SymbolTable.name?, List.find?_map, Option.isSome_map,
    Option.isSome_map]
  rfl

end InterferenceGraph

namespace BlockGraph

variable {g : BlockGraph} {t : SymbolTable} {n : Nat} {x s : Slot}

/-- The slots that the nodes name, node by node. -/
def slotsNamed (g : BlockGraph) : List Slot :=
  (List.range g.flowGraph.size).flatMap (InterferenceGraph.slotsAt g.flowGraph.solved.1)

theorem allocate_eq_error_iff : g.allocate t = .error ⟨s⟩ ↔
    g.slotsNamed.find? (fun x => (t.name? x).isNone) = some s := by
  have hdeclares : (fun x => (t.name? x).isNone)
      = fun x => !(InterferenceGraph.ofSymbols t).declares x := by
    funext x
    rw [InterferenceGraph.declares_ofSymbols, Option.not_isSome]
  rw [hdeclares, slotsNamed, ← InterferenceGraph.addNodes_eq_error_iff (e := ⟨s⟩), allocate]
  unfold InterferenceGraph.ofLiveness
  split
  · rename_i ig hig
    simp [hig]
  · rename_i e he
    rw [he, Except.error.injEq, Except.error.injEq]

/-- A node names the slot of its instruction and the slots that are live after it. -/
def Names (g : BlockGraph) (n : Nat) (x : Slot) : Prop :=
  g.slotAt? n = some x ∨ x ∈ g.flowGraph.solved.1.liveOut n

theorem slotsAt_eq (g : BlockGraph) (n : Nat) :
    InterferenceGraph.slotsAt g.flowGraph.solved.1 n
      = (g.slotAt? n).toList ++ (g.flowGraph.solved.1.liveOut n).toList := by
  rw [InterferenceGraph.slotsAt, toList_slotAt?]

theorem mem_slotsAt : x ∈ InterferenceGraph.slotsAt g.flowGraph.solved.1 n ↔ g.Names n x := by
  rw [slotsAt_eq, List.mem_append, Option.mem_toList, OrdSet.mem_toList, Names]

/-- What a node names stands in an instruction: what is live is read later on. -/
theorem Names.exists_slotAt? (h : g.Names n x) : ∃ i, g.slotAt? i = some x := by
  rcases h with h | h
  · exact ⟨n, h⟩
  · obtain ⟨j, -, hahead⟩ := FlowGraph.mem_liveOut_solved.mp h
    obtain ⟨i, hi⟩ := hahead.exists_reads?
    have hmem : x ∈ (g.slotAt? i).toList := by
      rw [toList_slotAt?, hi]
      simp
    exact ⟨i, Option.mem_toList.mp hmem⟩

theorem mem_slotsNamed : x ∈ g.slotsNamed ↔ ∃ i, g.slotAt? i = some x := by
  rw [slotsNamed, List.mem_flatMap]
  constructor
  · rintro ⟨n, -, hn⟩
    exact (mem_slotsAt.mp hn).exists_slotAt?
  · rintro ⟨n, hn⟩
    have hmem := mem_slotsAt.mpr (Or.inl hn)
    exact ⟨n, List.mem_range.mpr (InterferenceGraph.lt_size_of_mem_slotsAt hmem), hmem⟩

/-- The slot has no name, and at the node it is the first of these: the one of the instruction, or
else the least of those that are live after it. -/
def Reports (g : BlockGraph) (t : SymbolTable) (n : Nat) (s : Slot) : Prop :=
  t.name? s = none ∧ (g.slotAt? n = some s ∨
    ((∀ x, g.slotAt? n = some x → t.name? x ≠ none) ∧ s ∈ g.flowGraph.solved.1.liveOut n
      ∧ ∀ x ∈ g.flowGraph.solved.1.liveOut n, t.name? x = none → x = s ∨ s < x))

theorem find?_slotsAt : (InterferenceGraph.slotsAt g.flowGraph.solved.1 n).find?
    (fun x => (t.name? x).isNone) = some s ↔ g.Reports t n s := by
  have hlive : (g.flowGraph.solved.1.liveOut n).toList.find? (fun x => (t.name? x).isNone) = some s
      ↔ t.name? s = none ∧ s ∈ g.flowGraph.solved.1.liveOut n
        ∧ ∀ x ∈ g.flowGraph.solved.1.liveOut n, t.name? x = none → x = s ∨ s < x := by
    rw [(OrdSet.ascending _).find?_eq_some_iff, and_left_comm]
    simp only [Option.isNone_iff_eq_none, OrdSet.mem_toList]
  have hown : (g.slotAt? n).toList.find? (fun x => (t.name? x).isNone) = some s
      ↔ g.slotAt? n = some s ∧ t.name? s = none := by
    rcases g.slotAt? n with _ | y
    · simp
    · rw [Option.toList_some, List.find?_singleton, Option.ite_none_right_eq_some,
        Option.isNone_iff_eq_none, and_comm]
      exact and_congr_right fun heq => by rw [Option.some.inj heq]
  have hnamed : (g.slotAt? n).toList.find? (fun x => (t.name? x).isNone) = none
      ↔ ∀ x, g.slotAt? n = some x → t.name? x ≠ none := by
    simp [List.find?_eq_none]
  rw [slotsAt_eq, List.find?_append, Option.or_eq_some_iff, hown, hnamed, hlive, Reports]
  constructor
  · rintro (⟨hslot, hs⟩ | ⟨hslot, hs, hleast⟩)
    · exact ⟨hs, Or.inl hslot⟩
    · exact ⟨hs, Or.inr ⟨hslot, hleast⟩⟩
  · rintro ⟨hs, hslot | ⟨hslot, hleast⟩⟩
    · exact Or.inl ⟨hslot, hs⟩
    · exact Or.inr ⟨hslot, hs, hleast⟩

theorem allocate_eq_error_iff_reports : g.allocate t = .error ⟨s⟩ ↔
    ∃ n, g.Reports t n s ∧ ∀ m < n, ∀ x, g.Names m x → t.name? x ≠ none := by
  have hnone : ∀ m, (InterferenceGraph.slotsAt g.flowGraph.solved.1 m).find?
      (fun x => (t.name? x).isNone) = none ↔ ∀ x, g.Names m x → t.name? x ≠ none := by
    intro m
    simp only [List.find?_eq_none, mem_slotsAt, Option.isNone_iff_eq_none, ne_eq]
  rw [allocate_eq_error_iff, slotsNamed, List.find?_flatMap, findSome?_range_eq_some]
  simp only [find?_slotsAt, hnone]
  refine exists_congr fun n => and_iff_right_of_imp fun ⟨hreports, _⟩ => ?_
  exact InterferenceGraph.lt_size_of_mem_slotsAt
    (List.mem_of_find?_eq_some (find?_slotsAt.mpr hreports))

theorem slotAt?_of_allocate (h : g.allocate t = .error ⟨s⟩) :
    (∃ i, g.slotAt? i = some s) ∧ t.name? s = none := by
  have hfind := allocate_eq_error_iff.mp h
  exact ⟨mem_slotsNamed.mp (List.mem_of_find?_eq_some hfind), by simpa using List.find?_some hfind⟩

theorem exists_allocate_error_iff : (∃ e, g.allocate t = .error e) ↔
    ∃ s, (∃ i, g.slotAt? i = some s) ∧ t.name? s = none := by
  constructor
  · rintro ⟨⟨s⟩, hs⟩
    exact ⟨s, slotAt?_of_allocate hs⟩
  · rintro ⟨s, hslot, hnone⟩
    rcases hfind : g.slotsNamed.find? fun x => (t.name? x).isNone with _ | x
    · have hnamed := List.find?_eq_none.mp hfind s (mem_slotsNamed.mpr hslot)
      simp [hnone] at hnamed
    · exact ⟨⟨x⟩, allocate_eq_error_iff.mpr hfind⟩

end BlockGraph

/-- Allocation fails exactly if a load or store names a slot without a name.  The slot reported is
such a slot, and it is found at the first node that names one, as the slot of its own instruction or
else as the least of the slots live after it. -/
theorem allocate_error_exact (g : BlockGraph) (t : SymbolTable) :
    ((∃ e, g.allocate t = .error e) ↔ ∃ ins ∈ g.instructions, ∃ s,
        (ins.opcode = .load s ∨ ins.opcode = .store s) ∧ t.name? s = none)
      ∧ (∀ s, g.allocate t = .error ⟨s⟩ → t.name? s = none
          ∧ ∃ ins ∈ g.instructions, ins.opcode = .load s ∨ ins.opcode = .store s)
      ∧ ∀ s, g.allocate t = .error ⟨s⟩ ↔
          ∃ n, g.Reports t n s ∧ ∀ m < n, ∀ x, g.Names m x → t.name? x ≠ none := by
  refine ⟨?_, fun s hs => ?_, fun s => BlockGraph.allocate_eq_error_iff_reports⟩
  · rw [BlockGraph.exists_allocate_error_iff]
    constructor
    · rintro ⟨s, hslot, hnone⟩
      obtain ⟨ins, hins, hop⟩ := BlockGraph.exists_slotAt?_iff.mp hslot
      exact ⟨ins, hins, s, hop, hnone⟩
    · rintro ⟨ins, hins, s, hop, hnone⟩
      exact ⟨s, BlockGraph.exists_slotAt?_iff.mpr ⟨ins, hins, hop⟩, hnone⟩
  · obtain ⟨hslot, hnone⟩ := BlockGraph.slotAt?_of_allocate hs
    exact ⟨hnone, BlockGraph.exists_slotAt?_iff.mp hslot⟩

end SlotColoring
