import Mathlib.Data.Finset.Card
import SlotColoring.Proofs.FlowEdges
import SlotColoring.Proofs.SweepOrder

/-!
# How many sweeps it takes

A sweep visits the nodes from last to first, so within one sweep a slot is carried along any number
of edges that go forward; along an edge that goes back it is taken over from what the sweep before
has left (`Liveness.Swept`).  So whatever a sweep finds new, the second one or a later one, it also
finds new at a node from which an edge goes back, and there because of what the sweep before found
new (`Liveness.Swept.exists_gains`).  A slot comes new to a node only once.  Hence a slot that is
still new in sweep `k + 1` has come to `k` such nodes, one in each sweep
(`FlowGraph.le_card_of_gains`), and there are no more sweeps that change something than one and the
number of these nodes.
-/

namespace SlotColoring

section Sweep

variable {g : FlowGraph} {s s' t : Liveness g} {i : Nat} {x : Slot}

namespace Liveness

/-- What a sweep from the last node to the first makes of the sets `s`: a node takes over from the
nodes after it what this sweep has found, and from itself and those before it what was there. -/
structure Swept (s t : Liveness g) : Prop where
  mem_liveOut : ∀ {i x}, x ∈ t.liveOut i ↔
    ∃ j ∈ g.succs i, (i < j ∧ x ∈ t.liveIn j) ∨ (j ≤ i ∧ x ∈ s.liveIn j)
  mem_liveIn : ∀ {i x}, x ∈ t.liveIn i ↔
    g.reads? i = some x ∨ (x ∈ t.liveOut i ∧ g.writes? i ≠ some x)

theorem sweep_range_succ (s : Liveness g) (m : Nat) :
    (s.sweep (List.range (m + 1)).reverse).1
      = ((s.update m).1.sweep (List.range m).reverse).1 := by
  rw [List.range_succ, List.reverse_append, List.reverse_singleton, List.singleton_append, sweep]

/-- A sweep over the first nodes leaves the other ones as they are. -/
theorem sweep_range_of_le (i : Nat) : ∀ (m : Nat) {s : Liveness g}, m ≤ i →
    (s.sweep (List.range m).reverse).1.liveIn i = s.liveIn i
      ∧ (s.sweep (List.range m).reverse).1.liveOut i = s.liveOut i
  | 0, s, _ => ⟨rfl, rfl⟩
  | m + 1, s, hm => by
    obtain ⟨hin, hout⟩ := sweep_range_of_le i m (s := (s.update m).1) (by omega)
    have hne : i ≠ m := by omega
    rw [sweep_range_succ, hin, hout, liveIn_update, liveOut_update]
    simp [hne]

theorem sweep_range : ∀ (m : Nat) {s : Liveness g}, m ≤ g.size → ∀ i < m, ∀ x : Slot,
    (x ∈ (s.sweep (List.range m).reverse).1.liveOut i ↔ ∃ j ∈ g.succs i,
        (i < j ∧ x ∈ (s.sweep (List.range m).reverse).1.liveIn j) ∨ (j ≤ i ∧ x ∈ s.liveIn j))
      ∧ (x ∈ (s.sweep (List.range m).reverse).1.liveIn i ↔ g.reads? i = some x
        ∨ (x ∈ (s.sweep (List.range m).reverse).1.liveOut i ∧ g.writes? i ≠ some x))
  | 0, _, _, i, hi, _ => absurd hi (Nat.not_lt_zero i)
  | m + 1, s, hm, i, hi, x => by
    rw [sweep_range_succ]
    have hbefore : ∀ j, j ≠ m → (s.update m).1.liveIn j = s.liveIn j := fun j hj => by
      rw [liveIn_update]
      simp [hj]
    rcases Nat.lt_succ_iff_lt_or_eq.mp hi with hlt | rfl
    · obtain ⟨hout, hin⟩ := sweep_range m (s := (s.update m).1) (by omega) i hlt x
      refine ⟨hout.trans (exists_congr fun j => and_congr_right fun _ => ?_), hin⟩
      refine or_congr_right (and_congr_right fun hj => ?_)
      rw [hbefore j (by omega)]
    · -- the sweep comes to this node first, when nothing has changed yet
      obtain ⟨hin, hout⟩ := sweep_range_of_le i i (s := (s.update i).1) (Nat.le_refl i)
      have hnow : i < g.size := hm
      rw [hin, hout, liveIn_update, liveOut_update, if_pos ⟨rfl, hnow⟩, if_pos ⟨rfl, hnow⟩]
      refine ⟨?_, mem_nextIn⟩
      rw [mem_nextOut]
      refine exists_congr fun j => and_congr_right fun _ => ?_
      rcases Nat.lt_or_ge i j with hij | hij
      · have hafter := (sweep_range_of_le j i (s := (s.update i).1) (by omega)).1
        rw [hafter, hbefore j (by omega)]
        simp [hij, Nat.not_le.mpr hij]
      · simp [hij, Nat.not_lt.mpr hij]

theorem swept_backwards (s : Liveness g) : s.Swept (s.sweep (backwards g)).1 := by
  constructor
  · intro i x
    rcases Nat.lt_or_ge i g.size with hi | hi
    · exact (sweep_range g.size (Nat.le_refl _) i hi x).1
    · have hnone : ∀ j, j ∉ g.succs i := fun j hj =>
        Nat.not_lt.mpr hi (FlowGraph.lt_size_of_mem_succs hj)
      rw [(stable_of_size_le hi).2, mem_nextOut]
      simp [hnone]
  · intro i x
    rcases Nat.lt_or_ge i g.size with hi | hi
    · exact (sweep_range g.size (Nat.le_refl _) i hi x).2
    · obtain ⟨hin, hout⟩ := stable_of_size_le (s := (s.sweep (backwards g)).1) hi
      rw [hin, hout, mem_nextIn]

/-- A slot comes to be live after a node that was not live there before. -/
def Gains (s t : Liveness g) (x : Slot) (i : Nat) : Prop := x ∈ t.liveOut i ∧ x ∉ s.liveOut i

/-- From the second sweep on, what is new before a node is new after it: the reads were all found
by the first sweep. -/
theorem Swept.gains (h : s.Swept s') (h' : s'.Swept t) (hx : x ∈ t.liveIn i)
    (hnew : x ∉ s'.liveIn i) : s'.Gains t x i := by
  rcases h'.mem_liveIn.mp hx with hr | ⟨hout, hw⟩
  · exact absurd (h.mem_liveIn.mpr (Or.inl hr)) hnew
  · exact ⟨hout, fun hold => hnew (h.mem_liveIn.mpr (Or.inr ⟨hold, hw⟩))⟩

/-- What a sweep finds new it has along an edge that goes back, from what was new in the sweep
before it. -/
theorem Swept.exists_gains (h : s.Swept s') (h' : s'.Swept t) {i : Nat}
    (hgain : s'.Gains t x i) : ∃ b, s'.Gains t x b
      ∧ ∃ j ∈ g.succs b, j ≤ b ∧ x ∈ s'.liveIn j ∧ x ∉ s.liveIn j := by
  obtain ⟨hx, hnew⟩ := hgain
  obtain ⟨j, hj, hfrom⟩ := h'.mem_liveOut.mp hx
  have hi : i < g.size := FlowGraph.lt_size_of_mem_succs hj
  rcases hfrom with ⟨hlt, hin⟩ | ⟨hle, hin⟩
  · have hnewIn : x ∉ s'.liveIn j := fun hold =>
      hnew (h.mem_liveOut.mpr ⟨j, hj, Or.inl ⟨hlt, hold⟩⟩)
    exact h.exists_gains h' (h.gains h' hin hnewIn)
  · have hnewIn : x ∉ s.liveIn j := fun hold =>
      hnew (h.mem_liveOut.mpr ⟨j, hj, Or.inr ⟨hle, hold⟩⟩)
    exact ⟨i, ⟨hx, hnew⟩, j, hj, hle, hin, hnewIn⟩
termination_by g.size - i
decreasing_by omega

theorem Swept.exists_gains_of_changed (h : s.Swept s') (hgrow : s'.Growing)
    (hc : (s'.sweep (backwards g)).2 = true) : ∃ x i, s'.Gains (s'.sweep (backwards g)).1 x i := by
  have hwithin := hgrow.within_sweep (backwards g)
  have hne : (s'.sweep (backwards g)).1 ≠ s' := fun hsame => by
    rw [(hgrow.sweep_eq_iff _).mp hsame] at hc
    exact absurd hc (by simp)
  by_contra hnone
  refine hne (ext_live fun i => ⟨OrdSet.ext_mem fun x => ⟨fun hx => ?_, (hwithin i).1 x⟩,
    OrdSet.ext_mem fun x => ⟨fun hx => ?_, (hwithin i).2 x⟩⟩)
  · exact by_contra fun hnew => hnone ⟨x, i, h.gains (swept_backwards s') hx hnew⟩
  · exact by_contra fun hnew => hnone ⟨x, i, hx, hnew⟩

end Liveness

namespace FlowGraph

/-- The live sets after some sweeps. -/
def afterSweeps (g : FlowGraph) : Nat → Liveness g
  | 0 => .empty g
  | k + 1 => ((g.afterSweeps k).sweep (Liveness.backwards g)).1

theorem growing_afterSweeps (g : FlowGraph) : ∀ k, (g.afterSweeps k).Growing
  | 0 => Liveness.growing_empty g
  | k + 1 => (g.growing_afterSweeps k).sweep _

theorem swept_afterSweeps (g : FlowGraph) (k : Nat) :
    (g.afterSweeps k).Swept (g.afterSweeps (k + 1)) :=
  Liveness.swept_backwards _

variable {B : Finset Nat} (hB : ∀ i j, j ∈ g.succs i → j ≤ i → i ∈ B)

include hB

/-- Each sweep but the first finds a slot new at another node from which an edge goes back. -/
theorem le_card_of_gains : ∀ (k : Nat) {x : Slot} {i : Nat},
    (g.afterSweeps k).Gains (g.afterSweeps (k + 1)) x i →
    k ≤ (B.filter fun b => x ∈ (g.afterSweeps (k + 1)).liveOut b).card
  | 0, _, _, _ => Nat.zero_le _
  | k + 1, x, i, hgain => by
    obtain ⟨b, hb, j, hj, hle, hin, hnew⟩ :=
      (g.swept_afterSweeps k).exists_gains (g.swept_afterSweeps (k + 1)) hgain
    have ih : k ≤ (B.filter fun b => x ∈ (g.afterSweeps (k + 1)).liveOut b).card := by
      cases k with
      | zero => exact Nat.zero_le _
      | succ k =>
        exact le_card_of_gains (k + 1)
          ((g.swept_afterSweeps k).gains (g.swept_afterSweeps (k + 1)) hin hnew)
    have hmore : (B.filter fun b => x ∈ (g.afterSweeps (k + 1)).liveOut b)
        ⊂ B.filter fun b => x ∈ (g.afterSweeps (k + 1 + 1)).liveOut b := by
      refine Finset.ssubset_iff_of_subset (fun c hc => ?_) |>.mpr ⟨b, ?_, ?_⟩
      · obtain ⟨hc, hx⟩ := Finset.mem_filter.mp hc
        exact Finset.mem_filter.mpr
          ⟨hc, ((g.growing_afterSweeps (k + 1)).within_sweep _ c).2 x hx⟩
      · exact Finset.mem_filter.mpr ⟨hB b j hj hle, hb.1⟩
      · exact fun hold => hb.2 (Finset.mem_filter.mp hold).2
    have hlt := Finset.card_lt_card hmore
    omega

theorem le_card_of_changed (k : Nat)
    (hc : ((g.afterSweeps k).sweep (Liveness.backwards g)).2 = true) : k ≤ B.card := by
  cases k with
  | zero => exact Nat.zero_le _
  | succ k =>
    obtain ⟨x, i, hgain⟩ :=
      (g.swept_afterSweeps k).exists_gains_of_changed (g.growing_afterSweeps (k + 1)) hc
    exact (g.le_card_of_gains hB (k + 1) hgain).trans (Finset.card_filter_le _ _)

theorem passes_le (h : s.Growing) : ∀ k, s = g.afterSweeps k → k ≤ B.card + 1 →
    k + (s.solveInOrder (Liveness.backwards g) h).2 ≤ B.card + 2 := by
  fun_induction Liveness.solveInOrder (Liveness.backwards g) s h with
  | case1 s h hc rest ih =>
    rintro k rfl hk
    have hle := g.le_card_of_changed hB k hc
    have hrest : k + 1 + rest.2 ≤ B.card + 2 := ih (k + 1) rfl (by omega)
    omega
  | case2 s h hc =>
    intro k _ hk
    omega

/-- Solving takes at most two sweeps more than there are nodes from which an edge goes back. -/
theorem solved_passes_le : g.solved.2 ≤ 2 + B.card := by
  have hle := g.passes_le hB (Liveness.growing_empty g) 0 rfl (Nat.zero_le _)
  rw [solved, Liveness.solve]
  omega

end FlowGraph

end Sweep

section Reads

variable {g : FlowGraph} {s : Liveness g} {order : List Nat}

namespace Liveness

theorem passes_pos (order : List Nat) (h : s.Growing) : 0 < (s.solveInOrder order h).2 := by
  rw [solveInOrder]
  split
  · exact Nat.succ_pos _
  · exact Nat.one_pos

theorem passes_eq_one_iff (h : s.Growing) :
    (s.solveInOrder order h).2 = 1 ↔ (s.sweep order).2 = false := by
  rw [solveInOrder]
  split
  · rename_i hc
    have hpos := passes_pos order (h.sweep order)
    refine iff_of_false ?_ (by simp [hc])
    show (solveInOrder order (s.sweep order).1 (h.sweep order)).2 + 1 ≠ 1
    omega
  · rename_i hc
    simpa using hc

end Liveness

/-- The first sweep changes nothing exactly if nothing is read. -/
theorem FlowGraph.solved_passes_eq_one_iff : g.solved.2 = 1 ↔ ∀ i, g.reads? i = none := by
  rw [solved, Liveness.solve, Liveness.passes_eq_one_iff,
    ← (Liveness.growing_empty g).sweep_eq_iff]
  constructor
  · intro hsame i
    rcases hr : g.reads? i with _ | x
    · rfl
    · have hmem := (Liveness.swept_backwards (.empty g)).mem_liveIn.mpr (Or.inl hr)
      rw [hsame, Liveness.liveIn_empty] at hmem
      exact absurd hmem OrdSet.not_mem_empty
  · intro hnone
    have hnever : ∀ {x : Slot} {i : Nat}, ¬ g.ReadAhead x i := fun h => by
      obtain ⟨j, hj⟩ := h.exists_reads?
      rw [hnone j] at hj
      exact absurd hj (by simp)
    have hearned := (Liveness.earned_empty g).sweep (Liveness.backwards g)
    refine Liveness.ext_live fun i => ?_
    rw [Liveness.liveIn_empty, Liveness.liveOut_empty]
    refine ⟨OrdSet.ext_mem fun x => iff_of_false (fun hx => ?_) OrdSet.not_mem_empty,
      OrdSet.ext_mem fun x => iff_of_false (fun hx => ?_) OrdSet.not_mem_empty⟩
    · exact hnever ((hearned i x).1 hx)
    · obtain ⟨j, -, hahead⟩ := (hearned i x).2 hx
      exact hnever hahead

end Reads

section Jumps

variable {events : List Event} {i : Nat}

theorem placedAt_iff_take {l : Label} {n : Nat} : PlacedAt events l n ↔
    ∃ k < events.length, events[k]? = some (.label l) ∧ (emitted (events.take k)).length = n := by
  constructor
  · rintro ⟨before, after, rfl, hn⟩
    exact ⟨before.length, by simp, by simp, by rwa [List.take_left]⟩
  · rintro ⟨k, hk, hget, hn⟩
    rw [List.getElem?_eq_getElem hk, Option.some.injEq] at hget
    refine ⟨events.take k, events.drop (k + 1), ?_, hn⟩
    rw [← hget, ← List.drop_eq_getElem_cons hk, List.take_append_drop]

instance (events : List Event) (l : Label) (n : Nat) : Decidable (PlacedAt events l n) :=
  decidable_of_iff _ placedAt_iff_take.symm

/-- The `i`-th instruction jumps to a place at or before its own. -/
def JumpsBack (events : List Event) (i : Nat) : Prop :=
  ∃ l ∈ (emitted events)[i]?.bind Opcode.target?, ∃ j ≤ i, PlacedAt events l j

instance (events : List Event) : DecidablePred (JumpsBack events) := fun i =>
  inferInstanceAs (Decidable (∃ l ∈ (emitted events)[i]?.bind Opcode.target?,
    ∃ j ≤ i, PlacedAt events l j))

/-- The places of the instructions that jump back. -/
def backJumps (events : List Event) : List Nat :=
  (List.range (emitted events).length).filter fun i => JumpsBack events i

theorem Follows.jumpsBack {j : Nat} (h : Follows events i j) (hle : j ≤ i) :
    JumpsBack events i := by
  obtain ⟨op, hop, -, ⟨rfl, -⟩ | ⟨l, hl, hplaced⟩⟩ := h
  · omega
  · exact ⟨l, by rw [hop]; exact hl, j, hle, hplaced⟩

theorem mem_backJumps : i ∈ backJumps events ↔ JumpsBack events i := by
  rw [backJumps, List.mem_filter, List.mem_range, decide_eq_true_eq]
  refine ⟨And.right, fun h => ⟨?_, h⟩⟩
  obtain ⟨l, hl, -⟩ := h
  obtain ⟨op, hop, -⟩ := Option.bind_eq_some_iff.mp hl
  exact (List.getElem?_eq_some_iff.mp hop).1

end Jumps

/-- Solving takes at most two sweeps more than there are jumps back, so at most two if all jumps go
forward, and one exactly if nothing is loaded. -/
theorem sweep_count_bounds {head : Head} {events : List Event} {g : BlockGraph}
    (h : BlockGraph.build head events = .ok g) :
    g.flowGraph.solved.2 ≤ 2 + (backJumps events).length
      ∧ ((∀ i, ¬ JumpsBack events i) → g.flowGraph.solved.2 ≤ 2)
      ∧ (g.flowGraph.solved.2 = 1 ↔ ∀ s, .load s ∉ emitted events) := by
  obtain ⟨b, hb, -, rfl⟩ := BlockGraph.exists_of_build h
  have hle : b.graph.purge.flowGraph.solved.2 ≤ 2 + (backJumps events).length := by
    refine (FlowGraph.solved_passes_le (B := (backJumps events).toFinset) ?_).trans ?_
    · intro i j hj hle
      exact List.mem_toFinset.mpr (mem_backJumps.mpr ((hb.mem_succs_iff.mp hj).jumpsBack hle))
    · exact Nat.add_le_add_left (List.toFinset_card_le _) 2
  refine ⟨hle, fun hforward => ?_, ?_⟩
  · have hnil : backJumps events = [] :=
      List.eq_nil_iff_forall_not_mem.mpr fun i hi => hforward i (mem_backJumps.mp hi)
    rwa [hnil] at hle
  · rw [FlowGraph.solved_passes_eq_one_iff]
    simp only [hb.reads?_eq]
    constructor
    · intro hnone s hs
      obtain ⟨i, hi⟩ := List.mem_iff_getElem?.mp hs
      simpa [hi, Opcode.reads?] using hnone i
    · intro hload i
      rcases hi : (emitted events)[i]? with _ | op
      · rfl
      · cases op with
        | load s => exact absurd (List.mem_of_getElem? hi) (hload s)
        | store s => rfl
        | jump c l => rfl
        | other m operands => rfl

/-- The slot is read in one place only, which control comes to from the start by two jumps back. -/
def twiceBack : List Event :=
  [.jump .always "C", .label "A", .emit (.load ⟨1, Slot.one_lt_total⟩), .jump .always "E",
    .label "B", .jump .always "A", .label "C", .jump .always "B", .label "E"]

/-- A read that a jump may pass over. -/
def passedOver : List Event :=
  [.jump (.zero .eq) "E", .emit (.load ⟨1, Slot.one_lt_total⟩), .label "E"]

theorem sweep_count_bounds_twiceBack :
    (∃ g, BlockGraph.build .blank twiceBack = .ok g
      ∧ backJumps twiceBack = [3, 4] ∧ g.flowGraph.solved.2 = 4
      ∧ g.flowGraph.solved.2 ≤ 2 + (backJumps twiceBack).length
      ∧ (g.flowGraph.solved.2 = 1 ↔ ∀ s, .load s ∉ emitted twiceBack))
    ∧ ∃ g, BlockGraph.build .blank passedOver = .ok g ∧ (∀ i, ¬ JumpsBack passedOver i)
      ∧ g.flowGraph.solved.2 ≤ 2 := by
  have hback : BlockGraph.build .blank twiceBack = .ok _ := rfl
  obtain ⟨hle, -, hone⟩ := sweep_count_bounds hback
  have hforward : BlockGraph.build .blank passedOver = .ok _ := rfl
  have hnone : ∀ i, ¬ JumpsBack passedOver i := fun i hi => by
    have hnil : backJumps passedOver = [] := by decide
    have hmem := mem_backJumps.mpr hi
    rw [hnil] at hmem
    exact List.not_mem_nil hmem
  exact ⟨⟨_, hback, by decide, by decide +kernel, hle, hone⟩,
    _, hforward, hnone, (sweep_count_bounds hforward).2.1 hnone⟩

end SlotColoring
