import SlotColoring.OrdSet

/-!
# Local variable slots

A slot is one of the 65536 places of a method's frame.  Slots are ordered by index, and a set of
slots has at most as many members as there are slots (`SlotSet.size_le`).
-/

namespace SlotColoring

/-- The number of slots that a frame can have. -/
def Slot.total : Nat := 65536

/-- A place in a method's frame. -/
structure Slot where
  index : Nat
  index_lt : index < Slot.total
deriving DecidableEq

namespace Slot

theorem one_lt_total : 1 < total := by decide

theorem two_lt_total : 2 < total := by decide

instance : LT Slot := ⟨fun a b => a.index < b.index⟩

instance : DecidableLT Slot := fun a b => inferInstanceAs (Decidable (a.index < b.index))

theorem ext_index : ∀ {a b : Slot}, a.index = b.index → a = b
  | ⟨_, _⟩, ⟨_, _⟩, rfl => rfl

instance : StrictTotal Slot where
  irrefl a := Nat.lt_irrefl a.index
  trans h h' := Nat.lt_trans h h'
  trichotomy a b := (Nat.lt_trichotomy a.index b.index).imp_right (Or.imp_left ext_index)

/-- The slot of an index, if it is in range. -/
def ofIndex? (n : Nat) : Option Slot :=
  if h : n < total then some ⟨n, h⟩ else none

instance : ToString Slot := ⟨fun s => toString s.index⟩

end Slot

/-- A set of slots. -/
abbrev SlotSet := OrdSet Slot

theorem ascending_range (n : Nat) : Ascending (List.range n) := List.pairwise_lt_range

theorem SlotSet.size_le (s : SlotSet) : s.size ≤ Slot.total := by
  have hasc : Ascending (s.toList.map Slot.index) := by
    rw [Ascending, List.pairwise_map]
    exact s.ascending
  have hsub := hasc.sublist (ascending_range Slot.total) fun x hx => by
    obtain ⟨a, -, rfl⟩ := List.mem_map.mp hx
    exact List.mem_range.mpr a.index_lt
  have hlen := hsub.length_le
  rwa [List.length_map, List.length_range] at hlen

end SlotColoring
