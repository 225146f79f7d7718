import Mathlib.Data.List.Chain
import SlotColoring.FlowGraph.Liveness

/-!
# The live sets are exact

A slot is live before a node if control may come from there to a read of the slot without passing
a write of it (`FlowGraph.ReadAhead`).  No update puts any other slot into a set
(`Liveness.Earned.update`), and sets that an update leaves alone hold every such slot, by induction
on the way to the read (`Liveness.mem_liveIn_of_readAhead`).  The sweeps stop at such sets, so what
they find is exactly what is live (`liveness_exact`).
-/

namespace SlotColoring

namespace FlowGraph

variable {g : FlowGraph} {x : Slot} {n : Nat}

/-- From the start of a node control may come to a read of the slot before any write of it. -/
inductive ReadAhead (g : FlowGraph) (x : Slot) : Nat → Prop
  | here {i : Nat} : g.reads? i = some x → ReadAhead g x i
  | later {i j : Nat} : g.writes? i ≠ some x → j ∈ g.succs i → ReadAhead g x j → ReadAhead g x i

/-- A path to a read of the slot, on which no node before the last writes it. -/
theorem exists_path_of_readAhead {j : Nat} (hj : j ∈ g.succs n) (h : g.ReadAhead x j) :
    ∃ mids m, List.IsChain (fun i k => k ∈ g.succs i) (n :: (mids ++ [m]))
      ∧ (∀ i ∈ mids, g.writes? i ≠ some x) ∧ g.reads? m = some x := by
  induction h generalizing n with
  | @here i hr => exact ⟨[], i, by simpa using hj, by simp, hr⟩
  | @later i k hw hk _ ih =>
    obtain ⟨mids, m, hchain, hmids, hr⟩ := ih hk
    refine ⟨i :: mids, m, List.isChain_cons_cons.mpr ⟨hj, hchain⟩, ?_, hr⟩
    intro i' hi'
    rcases List.mem_cons.mp hi' with rfl | hi'
    · exact hw
    · exact hmids i' hi'

theorem exists_readAhead_of_path {m : Nat} (hr : g.reads? m = some x) :
    ∀ (mids : List Nat) {n : Nat}, List.IsChain (fun i k => k ∈ g.succs i) (n :: (mids ++ [m])) →
      (∀ i ∈ mids, g.writes? i ≠ some x) → ∃ j ∈ g.succs n, g.ReadAhead x j
  | [], n, hchain, _ => ⟨m, by simpa using hchain, .here hr⟩
  | i :: mids, n, hchain, hmids => by
    obtain ⟨hi, hrest⟩ := List.isChain_cons_cons.mp hchain
    obtain ⟨j, hj, hahead⟩ := exists_readAhead_of_path hr mids hrest
      fun k hk => hmids k (List.mem_cons_of_mem _ hk)
    exact ⟨i, hi, .later (hmids i List.mem_cons_self) hj hahead⟩

theorem ReadAhead.exists_reads? (h : g.ReadAhead x n) : ∃ i, g.reads? i = some x := by
  induction h with
  | @here i hr => exact ⟨i, hr⟩
  | later _ _ _ ih => exact ih

end FlowGraph

namespace Liveness

variable {g : FlowGraph} {s t : Liveness g}

/-- An update of the node changes nothing. -/
def Stable (s : Liveness g) (i : Nat) : Prop :=
  s.liveIn i = s.nextIn i ∧ s.liveOut i = s.nextOut i

/-- Every slot in a set is live there. -/
def Earned (s : Liveness g) : Prop :=
  ∀ i x, (x ∈ s.liveIn i → g.ReadAhead x i)
    ∧ (x ∈ s.liveOut i → ∃ j ∈ g.succs i, g.ReadAhead x j)

section Stable

theorem ext_live (h : ∀ i, s.liveIn i = t.liveIn i ∧ s.liveOut i = t.liveOut i) : s = t := by
  have hsets : s.sets = t.sets := by
    refine Vector.ext fun i hi => ?_
    obtain ⟨hin, hout⟩ := h i
    simp only [liveIn, liveOut, hi, Vector.getElem?_eq_getElem, Option.map_some,
      Option.getD_some] at hin hout
    rcases hs : s.sets[i] with ⟨a, b⟩
    rcases ht : t.sets[i] with ⟨c, d⟩
    rw [hs, ht] at hin hout
    exact LivePair.mk.injEq .. ▸ ⟨hin, hout⟩
  cases s
  cases t
  exact congrArg Liveness.mk hsets

theorem Stable.update_eq {i : Nat} (h : s.Stable i) : (s.update i).1 = s := by
  refine ext_live fun j => ?_
  rw [liveIn_update, liveOut_update]
  split_ifs with hji
  · rw [hji.1]
    exact ⟨h.1.symm, h.2.symm⟩
  · exact ⟨rfl, rfl⟩

theorem stable_of_update {i : Nat} (hi : i < g.size) (h : (s.update i).2 = false) :
    s.Stable i := by
  simp only [update, dif_pos hi, Bool.or_eq_false_iff, decide_eq_false_iff_not, ne_eq,
    not_not] at h
  exact ⟨h.1.symm, h.2.symm⟩

/-- A node that the graph does not have has nothing live about it. -/
theorem stable_of_size_le {i : Nat} (hi : g.size ≤ i) : s.Stable i := by
  have hnode : g.nodes[i]? = none := Array.getElem?_eq_none hi
  have hsets : s.sets[i]? = none := Vector.getElem?_eq_none hi
  have hout : s.nextOut i = ∅ := by
    refine OrdSet.ext_mem fun x => ⟨fun hx => ?_, fun hx => absurd hx OrdSet.not_mem_empty⟩
    obtain ⟨j, hj, -⟩ := mem_nextOut.mp hx
    rw [FlowGraph.succs, hnode] at hj
    exact absurd hj OrdSet.not_mem_empty
  have hin : s.nextIn i = ∅ := by
    refine OrdSet.ext_mem fun x => ⟨fun hx => ?_, fun hx => absurd hx OrdSet.not_mem_empty⟩
    rcases mem_nextIn.mp hx with hr | ⟨hx, -⟩
    · simp [FlowGraph.reads?, hnode] at hr
    · rwa [hout] at hx
  refine ⟨?_, ?_⟩
  · rw [hin, liveIn, hsets]
    rfl
  · rw [hout, liveOut, hsets]
    rfl

theorem stable_of_sweep : ∀ (is : List Nat) {s : Liveness g}, (s.sweep is).2 = false →
    (s.sweep is).1 = s ∧ ∀ i ∈ is, i < g.size → s.Stable i
  | [], s, _ => ⟨rfl, by simp⟩
  | i :: is, s, h => by
    simp only [sweep, Bool.or_eq_false_iff] at h ⊢
    have hstable : i < g.size → s.Stable i := fun hi => stable_of_update hi h.1
    have hsame : (s.update i).1 = s := by
      by_cases hi : i < g.size
      · exact (hstable hi).update_eq
      · simp [update, hi]
    rw [hsame] at h ⊢
    obtain ⟨heq, hrest⟩ := stable_of_sweep is h.2
    refine ⟨heq, fun j hj hjlt => ?_⟩
    rcases List.mem_cons.mp hj with rfl | hj
    · exact hstable hjlt
    · exact hrest j hj hjlt

theorem Growing.within_sweep : ∀ (is : List Nat) {s : Liveness g}, s.Growing →
    s.Within (s.sweep is).1
  | [], s, _ => .refl s
  | i :: is, _, h => (h.within_update i).trans (within_sweep is (h.update i))

/-- A sweep tells of a change exactly if there is one. -/
theorem Growing.sweep_eq_iff (h : s.Growing) (is : List Nat) :
    (s.sweep is).1 = s ↔ (s.sweep is).2 = false := by
  refine ⟨fun hsame => ?_, fun hc => (stable_of_sweep is hc).1⟩
  by_contra hc
  have hlt := weight_lt_sweep is h (by simpa using hc)
  rw [hsame] at hlt
  exact Nat.lt_irrefl _ hlt

/-- The sweeps stop where no node that they visit changes any more. -/
theorem stable_solveInOrder {order : List Nat} (h : s.Growing) :
    ∀ i ∈ order, i < g.size → (s.solveInOrder order h).1.Stable i := by
  fun_induction Liveness.solveInOrder order s h with
  | case1 s h _ _ ih => exact ih
  | case2 s h hc =>
    obtain ⟨heq, hstable⟩ := stable_of_sweep order (by simpa using hc)
    rw [heq]
    exact hstable

end Stable

section Earned

theorem Earned.nextOut (h : s.Earned) {i : Nat} {x : Slot} (hx : x ∈ s.nextOut i) :
    ∃ j ∈ g.succs i, g.ReadAhead x j := by
  obtain ⟨j, hj, hx⟩ := mem_nextOut.mp hx
  exact ⟨j, hj, (h j x).1 hx⟩

theorem Earned.nextIn (h : s.Earned) {i : Nat} {x : Slot} (hx : x ∈ s.nextIn i) :
    g.ReadAhead x i := by
  rcases mem_nextIn.mp hx with hr | ⟨hx, hw⟩
  · exact .here hr
  · obtain ⟨j, hj, hahead⟩ := h.nextOut hx
    exact .later hw hj hahead

theorem Earned.update (h : s.Earned) (i : Nat) : (s.update i).1.Earned := by
  intro j x
  rw [liveIn_update, liveOut_update]
  split_ifs with hji
  · rw [hji.1]
    exact ⟨h.nextIn, h.nextOut⟩
  · exact h j x

theorem Earned.sweep : ∀ (is : List Nat) {s : Liveness g}, s.Earned → (s.sweep is).1.Earned
  | [], _, h => h
  | i :: is, _, h => Earned.sweep is (h.update i)

theorem Earned.solveInOrder {order : List Nat} {h : s.Growing} (he : s.Earned) :
    (s.solveInOrder order h).1.Earned := by
  fun_induction Liveness.solveInOrder order s h with
  | case1 s h _ _ ih => exact ih (he.sweep order)
  | case2 s h _ => exact he.sweep order

theorem earned_empty (g : FlowGraph) : (empty g).Earned := by
  intro i x
  rw [liveIn_empty, liveOut_empty]
  exact ⟨fun h => absurd h OrdSet.not_mem_empty, fun h => absurd h OrdSet.not_mem_empty⟩

end Earned

/-- Sets that no update changes hold every slot that is live. -/
theorem mem_liveIn_of_readAhead (h : ∀ i, s.Stable i) {x : Slot} {i : Nat}
    (hahead : g.ReadAhead x i) : x ∈ s.liveIn i := by
  induction hahead with
  | @here i hr =>
    rw [(h i).1]
    exact mem_nextIn.mpr (Or.inl hr)
  | @later i j hw hj _ ih =>
    rw [(h i).1]
    exact mem_nextIn.mpr (Or.inr ⟨mem_nextOut.mpr ⟨j, hj, ih⟩, hw⟩)

end Liveness

namespace FlowGraph

variable {g : FlowGraph} {x : Slot} {i : Nat}

theorem stable_solved (g : FlowGraph) (i : Nat) : g.solved.1.Stable i := by
  rcases Nat.lt_or_ge i g.size with hi | hi
  · refine Liveness.stable_solveInOrder (Liveness.growing_empty g) i ?_ hi
    rw [Liveness.backwards, List.mem_reverse]
    exact List.mem_range.mpr hi
  · exact Liveness.stable_of_size_le hi

theorem mem_liveIn_solved : x ∈ g.solved.1.liveIn i ↔ g.ReadAhead x i :=
  ⟨((Liveness.earned_empty g).solveInOrder i x).1, Liveness.mem_liveIn_of_readAhead g.stable_solved⟩

theorem mem_liveOut_solved : x ∈ g.solved.1.liveOut i ↔ ∃ j ∈ g.succs i, g.ReadAhead x j := by
  rw [(g.stable_solved i).2, Liveness.mem_nextOut]
  simp only [mem_liveIn_solved]

end FlowGraph

/-- A slot is found live after a node exactly if a path leads from the node to a read of the slot
and no node on the way writes it, and live before a node by what the node does to it. -/
theorem liveness_exact (g : FlowGraph) (n : Nat) (x : Slot) :
    (x ∈ g.solved.1.liveOut n ↔
        ∃ mids m, List.IsChain (fun i j => j ∈ g.succs i) (n :: (mids ++ [m]))
          ∧ (∀ i ∈ mids, g.writes? i ≠ some x) ∧ g.reads? m = some x)
      ∧ (x ∈ g.solved.1.liveIn n ↔
        g.reads? n = some x ∨ (g.writes? n ≠ some x ∧ x ∈ g.solved.1.liveOut n)) := by
  refine ⟨?_, ?_⟩
  · rw [FlowGraph.mem_liveOut_solved]
    constructor
    · rintro ⟨j, hj, hahead⟩
      exact FlowGraph.exists_path_of_readAhead hj hahead
    · rintro ⟨mids, m, hchain, hmids, hr⟩
      exact FlowGraph.exists_readAhead_of_path hr mids hchain hmids
  · rw [(g.stable_solved n).1, (g.stable_solved n).2, Liveness.mem_nextIn, and_comm]

end SlotColoring
