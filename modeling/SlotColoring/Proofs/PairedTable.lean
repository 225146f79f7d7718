import Mathlib.Data.List.AList
import SlotColoring.Proofs.Declarations

/-!
# A symbol table of two maps

A table may keep a map from names to slots beside one from slots to names, and write every binding
into both (`PairedTable`).  Nothing in its form makes the two maps each other's converse; that they
stay so depends on what the calls write.  Call by call it gives the answers of the table that keeps
a list of bindings (`Pairs.call`), so after any calls its maps are the two searches of that list
(`paired_sound`).
-/

namespace SlotColoring

/-- Names with their slots, and slots with their names. -/
structure PairedTable where
  byName : AList fun _ : String => Slot
  bySlot : AList fun _ : Slot => String

namespace PairedTable

instance : EmptyCollection PairedTable := ⟨⟨∅, ∅⟩⟩

/-- Writes a binding into both maps. -/
def bind (p : PairedTable) (x : String) (s : Slot) : PairedTable :=
  ⟨p.byName.insert x s, p.bySlot.insert s x⟩

/-- The slots in use, in ascending order. -/
def slots (p : PairedTable) : OrdSet Slot := .ofList p.bySlot.keys

/-- The bindings in ascending order of their slots. -/
def bindings (p : PairedTable) : List Binding :=
  p.slots.toList.filterMap fun s => (p.bySlot.lookup s).map fun x => ⟨x, s⟩

/-- The size of the frame: one more than the highest slot, and room for the argument array. -/
def localCount (p : PairedTable) : Nat :=
  (p.slots.toList.getLast?.map fun s => s.index + 1).getD 1

/-- Binds a name to a slot, and tells whether it could: both have to be free. -/
def declareAt (p : PairedTable) (x : String) (s : Slot) : PairedTable × Bool :=
  if (p.byName.lookup x).isSome || (p.bySlot.lookup s).isSome then (p, false)
  else (p.bind x s, true)

/-- Finds the slot of a name, binding a new name to the slot after the highest one in use.  Whether
that slot is free is not asked. -/
def declare (p : PairedTable) (x : String) : PairedTable × Option Slot :=
  match p.byName.lookup x with
  | some s => (p, some s)
  | none => match Slot.ofIndex? p.localCount with
    | some s => (p.bind x s, some s)
    | none => (p, none)

/-- The table after a call, and the binding that the answer stands for, if it is not a refusal. -/
def call (p : PairedTable) : SymbolCall → PairedTable × Option Binding
  | .declare x => ((p.declare x).1, (p.declare x).2.map fun s => ⟨x, s⟩)
  | .declareAt x s => ((p.declareAt x s).1, if (p.declareAt x s).2 then some ⟨x, s⟩ else none)

/-- The table after some calls. -/
def after (p : PairedTable) (calls : List SymbolCall) : PairedTable :=
  calls.foldl (fun p c => (p.call c).1) p

end PairedTable

/-- The two maps are the two searches of the list of bindings. -/
structure Pairs (t : SymbolTable) (p : PairedTable) : Prop where
  byName : ∀ x, p.byName.lookup x = t.slot? x
  bySlot : ∀ s, p.bySlot.lookup s = t.name? s

namespace Pairs

open SymbolTable

variable {t t' : SymbolTable} {p : PairedTable} {x : String} {s : Slot}

theorem empty : Pairs ∅ ∅ := ⟨fun _ => rfl, fun _ => rfl⟩

theorem converse (h : Pairs t p) (x : String) (s : Slot) :
    p.byName.lookup x = some s ↔ p.bySlot.lookup s = some x := by
  rw [h.byName, h.bySlot, slot?_eq_some_iff, name?_eq_some_iff]

theorem mem_slots (h : Pairs t p) : s ∈ p.slots ↔ s ∈ t.bindings.map Binding.slot := by
  rw [PairedTable.slots, OrdSet.mem_ofList, ← AList.mem_keys, ← AList.lookup_isSome, h.bySlot,
    Option.isSome_iff_exists, List.mem_map]
  simp only [name?_eq_some_iff]
  refine ⟨fun hbound => ?_, fun hbound => ?_⟩
  · obtain ⟨x, hx⟩ := hbound
    exact ⟨⟨x, s⟩, hx, rfl⟩
  · obtain ⟨b, hb, rfl⟩ := hbound
    exact ⟨b.name, hb⟩

theorem slots_toList (h : Pairs t p) : p.slots.toList = t.bindings.map Binding.slot :=
  p.slots.ascending.eq_of_mem_iff t.ascending_slots fun _ => h.mem_slots

theorem localCount (h : Pairs t p) : p.localCount = t.localCount := by
  rw [PairedTable.localCount, h.slots_toList, List.getLast?_map, Option.map_map]
  rfl

theorem bindings (h : Pairs t p) : p.bindings = t.bindings := by
  have hfound : ∀ b ∈ t.bindings,
      ((p.bySlot.lookup b.slot).map fun x => (⟨x, b.slot⟩ : Binding)) = some b := fun b hb => by
    rw [h.bySlot, t.name?_eq_some_iff.mpr hb, Option.map_some]
  rw [PairedTable.bindings, h.slots_toList, List.filterMap_map]
  exact (List.filterMap_congr hfound).trans List.filterMap_some

/-- Both maps have as many entries as there are bindings. -/
theorem size (h : Pairs t p) : p.byName.keys.length = t.size ∧ p.bySlot.keys.length = t.size := by
  have hnames : p.byName.keys.Perm (t.bindings.map Binding.name) := by
    refine (List.perm_ext_iff_of_nodup p.byName.keys_nodup (List.pairwise_map.mpr t.distinct)).mpr
      fun x => ?_
    rw [← AList.mem_keys, ← AList.lookup_isSome, h.byName, Option.isSome_iff_exists, List.mem_map]
    simp only [slot?_eq_some_iff]
    refine ⟨fun hbound => ?_, fun hbound => ?_⟩
    · obtain ⟨s, hs⟩ := hbound
      exact ⟨⟨x, s⟩, hs, rfl⟩
    · obtain ⟨b, hb, rfl⟩ := hbound
      exact ⟨b.slot, hb⟩
  have hslots : p.bySlot.keys.Perm (t.bindings.map Binding.slot) := by
    refine (List.perm_ext_iff_of_nodup p.bySlot.keys_nodup t.ascending_slots.nodup).mpr fun s => ?_
    rw [← h.mem_slots, PairedTable.slots, OrdSet.mem_ofList]
  exact ⟨by rw [hnames.length_eq, List.length_map, SymbolTable.size],
    by rw [hslots.length_eq, List.length_map, SymbolTable.size]⟩

/-- Writing a free name and a free slot into both maps puts their binding in its place. -/
theorem bind (h : Pairs t p) (hx : t.slot? x = none) (hs : t.name? s = none)
    (ht : t'.bindings = place ⟨x, s⟩ t.bindings) : Pairs t' (p.bind x s) := by
  refine ⟨fun y => Option.ext fun u => ?_, fun u => Option.ext fun y => ?_⟩
  · rw [slot?_eq_some_iff, ht, mem_place, Binding.mk.injEq, ← slot?_eq_some_iff]
    show (p.byName.insert x s).lookup y = some u ↔ _
    by_cases hy : y = x
    · subst hy
      simp [hx, eq_comm]
    · simp [AList.lookup_insert_ne hy, h.byName, hy]
  · rw [name?_eq_some_iff, ht, mem_place, Binding.mk.injEq, ← name?_eq_some_iff]
    show (p.bySlot.insert s x).lookup u = some y ↔ _
    by_cases hu : u = s
    · subst hu
      simp [hs, eq_comm]
    · simp [AList.lookup_insert_ne hu, h.bySlot, hu]

theorem declareAt (h : Pairs t p) (x : String) (s : Slot) :
    Pairs (t.declareAt x s).1 (p.declareAt x s).1
      ∧ (p.declareAt x s).2 = (t.declareAt x s).2 := by
  unfold PairedTable.declareAt
  rw [h.byName, h.bySlot]
  by_cases hfree : t.slot? x = none ∧ t.name? s = none
  · obtain ⟨hbindings, hgranted⟩ := declareAt_of_free hfree.1 hfree.2
    rw [hfree.1, hfree.2, hgranted]
    exact ⟨h.bind hfree.1 hfree.2 hbindings, rfl⟩
  · have htaken : ((t.slot? x).isSome || (t.name? s).isSome) = true := by
      rw [Bool.or_eq_true, Option.isSome_iff_ne_none, Option.isSome_iff_ne_none]
      exact Decidable.not_and_iff_or_not.mp hfree
    rw [declareAt_of_taken hfree, if_pos htaken]
    exact ⟨h, rfl⟩

/-- The slot after the highest one is free, so a new name may be bound to it unasked. -/
theorem declare (h : Pairs t p) (x : String) :
    Pairs (t.declare x).1 (p.declare x).1 ∧ (p.declare x).2 = (t.declare x).2 := by
  unfold PairedTable.declare
  rw [h.byName, h.localCount, ← nextSlot?]
  rcases hx : t.slot? x with _ | s
  · rcases hnext : t.nextSlot? with _ | s
    · rw [declare_of_full hx hnext]
      exact ⟨h, rfl⟩
    · obtain ⟨hbindings, hslot⟩ := declare_of_new hx hnext
      rw [hslot]
      exact ⟨h.bind hx (name?_nextSlot hnext) hbindings, rfl⟩
  · rw [declare_of_known hx]
    exact ⟨h, rfl⟩

/-- A call is answered alike by both, and leaves both in step. -/
theorem call (h : Pairs t p) (c : SymbolCall) :
    Pairs (t.call c).1 (p.call c).1 ∧ (p.call c).2 = (t.call c).2 := by
  cases c with
  | declare x =>
    obtain ⟨hpairs, hanswer⟩ := h.declare x
    refine ⟨hpairs, ?_⟩
    rw [PairedTable.call, SymbolTable.call, hanswer]
  | declareAt x s =>
    obtain ⟨hpairs, hanswer⟩ := h.declareAt x s
    refine ⟨hpairs, ?_⟩
    rw [PairedTable.call, SymbolTable.call, hanswer]

theorem after (h : Pairs t p) (calls : List SymbolCall) :
    Pairs (t.after calls) (p.after calls) := by
  induction calls generalizing t p with
  | nil => exact h
  | cons c calls ih => exact ih (h.call c).1

end Pairs

/-- After any calls the two maps of a paired table are each other's converse and hold the bindings
of the table that keeps a list, and the next call is answered as there. -/
theorem paired_sound (calls : List SymbolCall) :
    let p := (∅ : PairedTable).after calls
    let t := (∅ : SymbolTable).after calls
    (∀ x s, p.byName.lookup x = some s ↔ p.bySlot.lookup s = some x)
      ∧ p.byName.keys.length = p.bySlot.keys.length
      ∧ p.bindings = t.bindings ∧ p.localCount = t.localCount
      ∧ ∀ c, (p.call c).2 = (t.call c).2 := by
  intro p t
  have h : Pairs t p := Pairs.empty.after calls
  obtain ⟨hnames, hslots⟩ := h.size
  exact ⟨h.converse, hnames.trans hslots.symm, h.bindings, h.localCount, fun c => (h.call c).2⟩

end SlotColoring
