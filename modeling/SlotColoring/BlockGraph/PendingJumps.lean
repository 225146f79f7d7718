import SlotColoring.Opcode
import SlotColoring.SumOf

/-!
# Jumps to labels that are not placed yet

The jumps are kept in the order in which they were recorded; what waits for a label is a view of
that list.
-/

namespace SlotColoring

/-- The jumps whose label is still to come, each with the block that it ends. -/
structure PendingJumps where
  entries : List (Label × Nat)
deriving DecidableEq

namespace PendingJumps

instance : EmptyCollection PendingJumps := ⟨⟨[]⟩⟩

/-- Adds a jump behind the others. -/
def record (p : PendingJumps) (l : Label) (block : Nat) : PendingJumps :=
  ⟨p.entries ++ [(l, block)]⟩

/-- The blocks that wait for a label, in recorded order. -/
def waitingOn (p : PendingJumps) (l : Label) : List Nat :=
  (p.entries.filter fun e => e.1 = l).map Prod.snd

/-- Forgets the jumps to a label. -/
def settle (p : PendingJumps) (l : Label) : PendingJumps :=
  ⟨p.entries.filter fun e => e.1 ≠ l⟩

theorem waitingOn_record (p : PendingJumps) (l m : Label) (block : Nat) :
    (p.record l block).waitingOn m = p.waitingOn m ++ if l = m then [block] else [] := by
  by_cases h : l = m <;> simp [record, waitingOn, List.filter_append, h]

theorem waitingOn_settle (p : PendingJumps) (l m : Label) :
    (p.settle l).waitingOn m = if m = l then [] else p.waitingOn m := by
  simp only [settle, waitingOn, List.filter_filter]
  split
  · rename_i h
    subst h
    simp
  · rename_i h
    refine congrArg (List.map Prod.snd) (List.filter_congr fun e _ => ?_)
    by_cases he : e.1 = m
    · simp [he, h]
    · simp [he]

/-- The number of jumps that wait. -/
def size (p : PendingJumps) : Nat := p.entries.length

/-- No jump waits. -/
def isEmpty (p : PendingJumps) : Bool := p.entries.isEmpty

theorem isEmpty_iff_size (p : PendingJumps) : p.isEmpty = true ↔ p.size = 0 := by
  rw [isEmpty, List.isEmpty_iff, size, List.length_eq_zero_iff]

theorem isEmpty_iff_waitingOn (p : PendingJumps) :
    p.isEmpty = true ↔ ∀ l, p.waitingOn l = [] := by
  rw [isEmpty, List.isEmpty_iff]
  refine ⟨fun h l => by simp [waitingOn, h], fun h => ?_⟩
  rw [List.eq_nil_iff_forall_not_mem]
  intro e he
  have hwaits : e.2 ∈ p.waitingOn e.1 :=
    List.mem_map.mpr ⟨e, List.mem_filter.mpr ⟨he, by simp⟩, rfl⟩
  rw [h e.1] at hwaits
  exact absurd hwaits List.not_mem_nil

theorem size_settle (p : PendingJumps) (l : Label) :
    (p.waitingOn l).length + (p.settle l).size = p.size := by
  have hsplit := List.length_eq_countP_add_countP (l := p.entries) fun e => decide (e.1 = l)
  rw [List.countP_eq_length_filter, List.countP_eq_length_filter] at hsplit
  rw [waitingOn, List.length_map, settle, size, size, hsplit]
  simp

/-- The jumps are counted label by label. -/
theorem sum_waitingOn (p : PendingJumps) {ls : List Label} (hnodup : ls.Nodup)
    (hls : ∀ l, p.waitingOn l ≠ [] → l ∈ ls) :
    sumOf (fun l => (p.waitingOn l).length) ls = p.size := by
  induction ls generalizing p with
  | nil =>
    have hnone : p.isEmpty = true := p.isEmpty_iff_waitingOn.mpr fun l =>
      Decidable.byContradiction fun hl => List.not_mem_nil (hls l hl)
    exact (p.isEmpty_iff_size.mp hnone).symm
  | cons l ls ih =>
    obtain ⟨hl, hnodup⟩ := List.nodup_cons.mp hnodup
    -- settling `l` leaves what waits for the other labels as it is
    have hothers : ∀ m ∈ ls, (p.waitingOn m).length = ((p.settle l).waitingOn m).length :=
      fun m hm => by rw [waitingOn_settle, if_neg fun hml : m = l => hl (hml ▸ hm)]
    have hcounted := ih (p.settle l) hnodup fun m hm => by
      rw [waitingOn_settle] at hm
      split at hm
      · exact absurd rfl hm
      · rename_i hne
        exact (List.mem_cons.mp (hls m hm)).resolve_left hne
    rw [sumOf, sumOf_congr hothers, hcounted, size_settle]

/-- The labels that something waits for, in ascending order. -/
def labels (p : PendingJumps) : OrdSet Label := .ofList (p.entries.map Prod.fst)

theorem mem_labels {p : PendingJumps} {l : Label} : l ∈ p.labels ↔ p.waitingOn l ≠ [] := by
  simp [labels, waitingOn]

end PendingJumps

end SlotColoring
