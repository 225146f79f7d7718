import SlotColoring.BlockGraph.Builder
import SlotColoring.FlowGraph.Session
import SlotColoring.Proofs.LiveSets

/-!
# The order of the updates does not matter

Whatever was done to the live sets before, no step has put a slot into a set that is not live there
(`GrowingSets.earned_run`).  Sweeps that visit every node stop only at sets that no update changes,
and such sets hold all that is live.  So they come to the same sets from any history and in any
order (`solveInOrder_any_history`), though not after the same number of sweeps.
-/

namespace SlotColoring

namespace Liveness

variable {g : FlowGraph} {s t : Liveness g} {order : List Nat}

/-- Sweeps one after the other, `k` in all, of which the last is the first to change nothing. -/
inductive SweepsTo (order : List Nat) : Liveness g → Nat → Liveness g → Prop
  | last {s : Liveness g} : (s.sweep order).2 = false → SweepsTo order s 1 (s.sweep order).1
  | more {s t : Liveness g} {k : Nat} : (s.sweep order).2 = true →
      SweepsTo order (s.sweep order).1 k t → SweepsTo order s (k + 1) t

theorem sweepsTo_solveInOrder (order : List Nat) (h : s.Growing) :
    SweepsTo order s (s.solveInOrder order h).2 (s.solveInOrder order h).1 := by
  fun_induction Liveness.solveInOrder order s h with
  | case1 s h hc rest ih => exact .more hc ih
  | case2 s h hc => exact .last (by simpa using hc)

/-- There is only one choice of sets that hold what is live and nothing else. -/
theorem eq_of_stable (hs : ∀ i, s.Stable i) (hes : s.Earned) (ht : ∀ i, t.Stable i)
    (het : t.Earned) : s = t := by
  have hin : ∀ i, s.liveIn i = t.liveIn i := by
    intro i
    refine OrdSet.ext_mem fun x => ⟨fun hx => ?_, fun hx => ?_⟩
    · exact mem_liveIn_of_readAhead ht ((hes i x).1 hx)
    · exact mem_liveIn_of_readAhead hs ((het i x).1 hx)
  refine ext_live fun i => ⟨hin i, ?_⟩
  rw [(hs i).2, (ht i).2]
  refine OrdSet.ext_mem fun x => ?_
  rw [mem_nextOut, mem_nextOut]
  simp only [hin]

theorem stable_solveInOrder_of_perm (h : s.Growing) (horder : order.Perm (List.range g.size))
    (i : Nat) : (s.solveInOrder order h).1.Stable i := by
  rcases Nat.lt_or_ge i g.size with hi | hi
  · have hmem : i ∈ order := horder.mem_iff.mpr (List.mem_range.mpr hi)
    exact stable_solveInOrder h i hmem hi
  · exact stable_of_size_le hi

theorem Stable.update_snd {i : Nat} (h : s.Stable i) : (s.update i).2 = false := by
  unfold update
  split_ifs
  · simp [← h.1, ← h.2]
  · rfl

end Liveness

namespace GrowingSets

variable {g : FlowGraph} {s : GrowingSets g}

theorem earned_step (h : s.1.Earned) : ∀ x : LivenessStep, (s.step x).1.1.Earned := by
  have hsweep : ∀ nodes, (s.sweep nodes).1.1.Earned := fun nodes => h.sweep _
  have hsolve : ∀ order, (s.solveInOrder order).1.1.Earned := by
    intro order
    unfold solveInOrder
    split_ifs
    · exact h
    · exact h.solveInOrder
    · exact hsweep order
  intro x
  cases x with
  | update node => exact hsweep [node]
  | sweep nodes => exact hsweep nodes
  | solveInOrder order => exact hsolve order
  | solve => exact hsolve (Liveness.backwards g)

theorem earned_run : ∀ (steps : List LivenessStep) {s : GrowingSets g}, s.1.Earned →
    (s.run steps).1.Earned
  | [], _, h => h
  | x :: steps, _, h => earned_run steps (earned_step h x)

/-- An order that names nodes of the graph only, as many as it has, is no fault. -/
theorem solveInOrder_of_known {order : List Nat} (hlen : order.length = g.size)
    (hknown : ∀ i ∈ order, i < g.size) :
    s.solveInOrder order = (⟨(s.1.solveInOrder order s.2).1, s.2.solveInOrder⟩,
      .passes (s.1.solveInOrder order s.2).2) := by
  have hall : (order.all fun i => decide (i < g.size)) = true := by
    rw [List.all_eq_true]
    intro i hi
    simpa using hknown i hi
  simp only [solveInOrder, hlen, hall, ne_eq, not_true, if_false, if_true]

theorem step_solveInOrder {order : List Nat} (horder : order.Perm (List.range g.size)) :
    s.step (.solveInOrder order) = (⟨(s.1.solveInOrder order s.2).1, s.2.solveInOrder⟩,
      .passes (s.1.solveInOrder order s.2).2) := by
  have hlen : order.length = g.size := by rw [horder.length_eq, List.length_range]
  exact solveInOrder_of_known hlen fun i hi => by simpa using horder.mem_iff.mp hi

theorem step_update_of_stable {n : Nat} (hn : n < g.size) (h : s.1.Stable n) :
    s.step (.update n) = (s, .changed false) := by
  have hknown : [n].takeWhile (fun i => decide (i < g.size)) = [n] := by simp [hn]
  have hsweep : s.1.sweep [n] = (s.1, false) := by
    simp only [Liveness.sweep, h.update_eq, h.update_snd, Bool.or_false]
  simp only [step, sweep, hknown, hsweep, if_true]

end GrowingSets

/-- After any steps on the live sets, sweeps that visit each node once come to an end and leave
what solving leaves on the untouched graph; no update of a node changes that any more. -/
theorem solveInOrder_any_history (g : FlowGraph) (steps : List LivenessStep) {order : List Nat}
    (horder : order.Perm (List.range g.size)) :
    ∃ k, ((GrowingSets.empty g).run steps).step (.solveInOrder order)
          = (((GrowingSets.empty g).step .solve).1, .passes k)
      ∧ Liveness.SweepsTo order ((GrowingSets.empty g).run steps).1 k
          ((GrowingSets.empty g).step .solve).1.1
      ∧ ∀ n < g.size, ((GrowingSets.empty g).step .solve).1.step (.update n)
          = (((GrowingSets.empty g).step .solve).1, .changed false) := by
  have hback : (Liveness.backwards g).Perm (List.range g.size) := List.reverse_perm _
  have hsolve : (GrowingSets.empty g).step .solve
      = (GrowingSets.empty g).step (.solveInOrder (Liveness.backwards g)) := rfl
  have hearned := GrowingSets.earned_run steps (s := .empty g) (Liveness.earned_empty g)
  have hsame := Liveness.eq_of_stable
    (Liveness.stable_solveInOrder_of_perm ((GrowingSets.empty g).run steps).2 horder)
    hearned.solveInOrder
    (Liveness.stable_solveInOrder_of_perm (Liveness.growing_empty g) hback)
    (Liveness.earned_empty g).solveInOrder
  rw [hsolve, GrowingSets.step_solveInOrder horder, GrowingSets.step_solveInOrder hback]
  refine ⟨_, Prod.ext (Subtype.ext hsame) rfl, ?_, ?_⟩
  · have hsweeps := Liveness.sweepsTo_solveInOrder order ((GrowingSets.empty g).run steps).2
    rwa [hsame] at hsweeps
  · intro n hn
    exact GrowingSets.step_update_of_stable hn
      (Liveness.stable_solveInOrder_of_perm (Liveness.growing_empty g) hback n)

/-- A loop that reads one slot and writes another, which is read after it. -/
def readingLoop : List Event :=
  [.label "A", .emit (.load ⟨1, Slot.one_lt_total⟩), .emit (.store ⟨2, Slot.two_lt_total⟩),
    .jump (.zero .ne) "A", .emit (.load ⟨2, Slot.two_lt_total⟩)]

theorem solveInOrder_any_history_readingLoop : ∃ g, BlockGraph.build .blank readingLoop = .ok g
    ∧ [2, 0, 3, 1].Perm (List.range g.flowGraph.size)
    ∧ ∃ k, ((GrowingSets.empty g.flowGraph).run [.update 0, .sweep [2, 2]]).step
            (.solveInOrder [2, 0, 3, 1])
          = (((GrowingSets.empty g.flowGraph).step .solve).1, .passes k)
      ∧ Liveness.SweepsTo [2, 0, 3, 1]
          ((GrowingSets.empty g.flowGraph).run [.update 0, .sweep [2, 2]]).1 k
          ((GrowingSets.empty g.flowGraph).step .solve).1.1
      ∧ ∀ n < g.flowGraph.size, ((GrowingSets.empty g.flowGraph).step .solve).1.step (.update n)
          = (((GrowingSets.empty g.flowGraph).step .solve).1, .changed false) :=
  ⟨_, rfl, by decide, solveInOrder_any_history _ _ (by decide)⟩

end SlotColoring
