import SlotColoring.Proofs.SweepOrder

/-!
# Live sets only grow

An update puts new sets in the place of the old ones, so it may well lose a slot.  It does not if
the sets of every node lie within what an update would make of them (`Liveness.Growing`), and that
holds of the empty sets and is kept by every update, in whatever order and also where a node follows
itself (`Liveness.Reached.growing`).  Nor does an update put in a slot that no path calls for
(`Liveness.Reached.earned`).  So sweeps over any nodes come to an end (`live_sets_grow`).
-/

namespace SlotColoring

namespace FlowGraph

variable {g : FlowGraph} {x : Slot} {n : Nat}

/-- A path leads from the node to a read of the slot, and no node on the way writes it. -/
def LiveAfter (g : FlowGraph) (x : Slot) (n : Nat) : Prop :=
  ∃ mids m, List.IsChain (fun i j => j ∈ g.succs i) (n :: (mids ++ [m]))
    ∧ (∀ i ∈ mids, g.writes? i ≠ some x) ∧ g.reads? m = some x

/-- The node reads the slot, or leaves it alone and such a path leads on from it. -/
def LiveBefore (g : FlowGraph) (x : Slot) (n : Nat) : Prop :=
  g.reads? n = some x ∨ (g.writes? n ≠ some x ∧ g.LiveAfter x n)

theorem liveAfter_iff : g.LiveAfter x n ↔ ∃ j ∈ g.succs n, g.ReadAhead x j := by
  constructor
  · rintro ⟨mids, m, hchain, hmids, hr⟩
    exact exists_readAhead_of_path hr mids hchain hmids
  · rintro ⟨j, hj, hahead⟩
    exact exists_path_of_readAhead hj hahead

theorem ReadAhead.liveBefore (h : g.ReadAhead x n) : g.LiveBefore x n := by
  cases h with
  | here hr => exact Or.inl hr
  | later hw hj hahead => exact Or.inr ⟨hw, liveAfter_iff.mpr ⟨_, hj, hahead⟩⟩

end FlowGraph

namespace Liveness

variable {g : FlowGraph} {s : Liveness g} {n : Nat}

/-- The sets come from the empty ones by updates and sweeps of nodes of the graph. -/
inductive Reached : Liveness g → Prop
  | start : Reached (empty g)
  | update {s : Liveness g} {i : Nat} : Reached s → i < g.size → Reached (s.update i).1
  | sweep {s : Liveness g} {is : List Nat} : Reached s → (∀ i ∈ is, i < g.size) →
      Reached (s.sweep is).1

theorem Reached.growing (h : s.Reached) : s.Growing := by
  induction h with
  | start => exact growing_empty g
  | update _ _ ih => exact ih.update _
  | sweep _ _ ih => exact ih.sweep _

theorem Reached.earned (h : s.Reached) : s.Earned := by
  induction h with
  | start => exact earned_empty g
  | update _ _ ih => exact ih.update _
  | sweep _ _ ih => exact ih.sweep _

theorem update_snd_eq_false_iff (hn : n < g.size) : (s.update n).2 = false ↔ s.Stable n :=
  ⟨stable_of_update hn, Stable.update_snd⟩

/-- Sets that an update leaves alone are those that gain nothing by it. -/
theorem Growing.stable_iff (h : s.Growing) : s.Stable n ↔
    s.nextIn n ⊆ s.liveIn n ∧ s.nextOut n ⊆ s.liveOut n := by
  constructor
  · rintro ⟨hin, hout⟩
    rw [← hin, ← hout]
    exact ⟨fun _ => id, fun _ => id⟩
  · rintro ⟨hin, hout⟩
    exact ⟨OrdSet.ext_mem fun x => ⟨(h n).1 x, hin x⟩, OrdSet.ext_mem fun x => ⟨(h n).2 x, hout x⟩⟩

/-- An update tells of a change exactly if a set gains a slot. -/
theorem Growing.update_snd_iff (h : s.Growing) (hn : n < g.size) : (s.update n).2 = true ↔
    ∃ x, (x ∈ s.nextIn n ∧ x ∉ s.liveIn n) ∨ (x ∈ s.nextOut n ∧ x ∉ s.liveOut n) := by
  have hgain : ∀ {a b : SlotSet}, ¬ a ⊆ b ↔ ∃ x, x ∈ a ∧ x ∉ b := by
    intro a b
    show (¬ ∀ x ∈ a, x ∈ b) ↔ _
    simp only [not_forall, exists_prop]
  rw [← Bool.not_eq_false, update_snd_eq_false_iff hn, h.stable_iff, not_and_or, exists_or, hgain,
    hgain]

theorem liveIn_update_self (hn : n < g.size) : (s.update n).1.liveIn n = s.nextIn n := by
  rw [liveIn_update, if_pos ⟨rfl, hn⟩]

theorem liveOut_update_self (hn : n < g.size) : (s.update n).1.liveOut n = s.nextOut n := by
  rw [liveOut_update, if_pos ⟨rfl, hn⟩]

end Liveness

/-- From sets that updates and sweeps have led to, an update of a node only adds to the sets of that
node, tells whether it did, and stays within what is live; and sweeps over as many nodes as there
are, repeated or not, come to an end. -/
theorem live_sets_grow {g : FlowGraph} {s : Liveness g} (hs : s.Reached) :
    (∀ n < g.size,
      s.liveIn n ⊆ (s.update n).1.liveIn n ∧ s.liveOut n ⊆ (s.update n).1.liveOut n
      ∧ (∀ m, m ≠ n → (s.update n).1.liveIn m = s.liveIn m
          ∧ (s.update n).1.liveOut m = s.liveOut m)
      ∧ ((s.update n).2 = true ↔ ∃ x, (x ∈ (s.update n).1.liveIn n ∧ x ∉ s.liveIn n)
          ∨ (x ∈ (s.update n).1.liveOut n ∧ x ∉ s.liveOut n))
      ∧ ∀ m x, (x ∈ (s.update n).1.liveIn m → g.LiveBefore x m)
          ∧ (x ∈ (s.update n).1.liveOut m → g.LiveAfter x m))
    ∧ ∀ order : List Nat, order.length = g.size → (∀ i ∈ order, i < g.size) →
      ∃ (h : s.Growing) (k : Nat) (t : GrowingSets g),
        GrowingSets.solveInOrder ⟨s, h⟩ order = (t, .passes k)
          ∧ Liveness.SweepsTo order s k t.1 := by
  have hgrowing := hs.growing
  refine ⟨fun n hn => ⟨?_, ?_, fun m hm => ?_, ?_, fun m x => ?_⟩, fun order hlen hknown => ?_⟩
  · exact (hgrowing.within_update n n).1
  · exact (hgrowing.within_update n n).2
  · rw [Liveness.liveIn_update, Liveness.liveOut_update, if_neg (by simp [hm]),
      if_neg (by simp [hm])]
    exact ⟨rfl, rfl⟩
  · rw [Liveness.liveIn_update_self hn, Liveness.liveOut_update_self hn]
    exact hgrowing.update_snd_iff hn
  · have hearned := (hs.update hn).earned m x
    exact ⟨fun hx => (hearned.1 hx).liveBefore,
      fun hx => FlowGraph.liveAfter_iff.mpr (hearned.2 hx)⟩
  · exact ⟨hgrowing, _, _, GrowingSets.solveInOrder_of_known hlen hknown,
      Liveness.sweepsTo_solveInOrder order hgrowing⟩

/-- After sweeping the last node twice, updating the one before it adds to its sets, and sweeps over
it again and again come to an end. -/
theorem live_sets_grow_readingLoop : ∃ g, BlockGraph.build .blank readingLoop = .ok g
    ∧ ∃ s : Liveness g.flowGraph, s.Reached ∧ (s.update 2).2 = true
      ∧ s.liveOut 2 ⊆ (s.update 2).1.liveOut 2
      ∧ (∃ x, (x ∈ (s.update 2).1.liveIn 2 ∧ x ∉ s.liveIn 2)
          ∨ (x ∈ (s.update 2).1.liveOut 2 ∧ x ∉ s.liveOut 2))
      ∧ ∃ (h : s.Growing) (k : Nat) (t : GrowingSets g.flowGraph),
        GrowingSets.solveInOrder ⟨s, h⟩ [2, 2, 0, 2] = (t, .passes k)
          ∧ Liveness.SweepsTo [2, 2, 0, 2] s k t.1 := by
  have hsample : ((BlockGraph.build .blank readingLoop).toOption.map fun g =>
      (g.flowGraph.size, (((Liveness.empty g.flowGraph).sweep [3, 3]).1.update 2).2))
        = some (4, true) := by
    decide +kernel
  rcases hg : BlockGraph.build .blank readingLoop with e | g
  · simp [hg, Except.toOption] at hsample
  · simp only [hg, Except.toOption, Option.map_some, Option.some.injEq, Prod.mk.injEq] at hsample
    obtain ⟨hsize, hchanged⟩ := hsample
    have hs : ((Liveness.empty g.flowGraph).sweep [3, 3]).1.Reached :=
      .sweep .start (by simp [hsize])
    obtain ⟨hupdate, hsolve⟩ := live_sets_grow hs
    obtain ⟨-, hout, -, htells, -⟩ := hupdate 2 (by omega)
    exact ⟨g, rfl, _, hs, hchanged, hout, htells.mp hchanged,
      hsolve [2, 2, 0, 2] (by simp [hsize]) (by simp [hsize])⟩

end SlotColoring
