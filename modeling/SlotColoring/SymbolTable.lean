import SlotColoring.Slot

/-!
# Symbol tables

A symbol table binds names to slots, one to one, and lists its bindings in ascending order of
their slots.  Slot 0 holds the argument array of the method, so numbering starts at slot 1.
-/

namespace SlotColoring

/-- A variable and its slot. -/
structure Binding where
  name : String
  slot : Slot
deriving DecidableEq

/-- Names with their slots, in ascending order of the slots. -/
structure SymbolTable where
  bindings : List Binding
  ascending : bindings.Pairwise fun a b => a.slot < b.slot
  distinct : bindings.Pairwise fun a b => a.name ≠ b.name
deriving DecidableEq

namespace SymbolTable

/-- Puts a binding in its place by slot. -/
def place (b : Binding) : List Binding → List Binding
  | [] => [b]
  | c :: l => if b.slot < c.slot then b :: c :: l else c :: place b l

theorem mem_place {b c : Binding} : ∀ {l : List Binding}, c ∈ place b l ↔ c = b ∨ c ∈ l
  | [] => by simp [place]
  | d :: l => by
    simp only [place]
    split
    · simp
    · simp only [List.mem_cons, mem_place]
      exact or_left_comm

theorem ascending_place {b : Binding} : ∀ {l : List Binding},
    l.Pairwise (fun a b => a.slot < b.slot) → (∀ c ∈ l, c.slot ≠ b.slot) →
    (place b l).Pairwise fun a b => a.slot < b.slot
  | [], _, _ => by simp [place]
  | d :: l, h, hb => by
    have hd := List.pairwise_cons.mp h
    simp only [place]
    split
    · rename_i hlt
      refine List.pairwise_cons.mpr ⟨fun c hc => ?_, h⟩
      rcases List.mem_cons.mp hc with rfl | hc
      · exact hlt
      · exact StrictTotal.trans hlt (hd.1 c hc)
    · rename_i hnlt
      have hlt : d.slot < b.slot := by
        rcases StrictTotal.trichotomy b.slot d.slot with h' | h' | h'
        · exact absurd h' hnlt
        · exact absurd h'.symm (hb d List.mem_cons_self)
        · exact h'
      refine List.pairwise_cons.mpr
        ⟨fun c hc => ?_, ascending_place hd.2 fun c hc => hb c (List.mem_cons_of_mem _ hc)⟩
      rcases mem_place.mp hc with rfl | hc
      · exact hlt
      · exact hd.1 c hc

theorem distinct_place {b : Binding} : ∀ {l : List Binding},
    l.Pairwise (fun a b => a.name ≠ b.name) → (∀ c ∈ l, c.name ≠ b.name) →
    (place b l).Pairwise fun a b => a.name ≠ b.name
  | [], _, _ => by simp [place]
  | d :: l, h, hb => by
    have hd := List.pairwise_cons.mp h
    simp only [place]
    split
    · exact List.pairwise_cons.mpr ⟨fun c hc => (hb c hc).symm, h⟩
    · refine List.pairwise_cons.mpr
        ⟨fun c hc => ?_, distinct_place hd.2 fun c hc => hb c (List.mem_cons_of_mem _ hc)⟩
      rcases mem_place.mp hc with rfl | hc
      · exact hb d List.mem_cons_self
      · exact hd.1 c hc

instance : EmptyCollection SymbolTable := ⟨⟨[], List.Pairwise.nil, List.Pairwise.nil⟩⟩

/-- The slot of a name. -/
def slot? (t : SymbolTable) (name : String) : Option Slot :=
  (t.bindings.find? fun b => b.name = name).map Binding.slot

/-- The name of a slot. -/
def name? (t : SymbolTable) (slot : Slot) : Option String :=
  (t.bindings.find? fun b => b.slot = slot).map Binding.name

/-- A name is bound once. -/
theorem eq_of_name_eq {b c : Binding} : ∀ {l : List Binding},
    l.Pairwise (fun a b => a.name ≠ b.name) → b ∈ l → c ∈ l → b.name = c.name → b = c
  | d :: l, h, hb, hc, hn => by
    have hd := List.pairwise_cons.mp h
    rcases List.mem_cons.mp hb with rfl | hb'
    · rcases List.mem_cons.mp hc with rfl | hc'
      · rfl
      · exact absurd hn (hd.1 c hc')
    · rcases List.mem_cons.mp hc with rfl | hc'
      · exact absurd hn.symm (hd.1 b hb')
      · exact eq_of_name_eq hd.2 hb' hc' hn

/-- A slot is bound once. -/
theorem eq_of_slot_eq {b c : Binding} : ∀ {l : List Binding},
    l.Pairwise (fun a b => a.slot < b.slot) → b ∈ l → c ∈ l → b.slot = c.slot → b = c
  | d :: l, h, hb, hc, hs => by
    have hd := List.pairwise_cons.mp h
    rcases List.mem_cons.mp hb with rfl | hb'
    · rcases List.mem_cons.mp hc with rfl | hc'
      · rfl
      · exact absurd (hs ▸ hd.1 c hc') (StrictTotal.irrefl _)
    · rcases List.mem_cons.mp hc with rfl | hc'
      · exact absurd (hs ▸ hd.1 b hb') (StrictTotal.irrefl _)
      · exact eq_of_slot_eq hd.2 hb' hc' hs

theorem slot?_eq_some_iff (t : SymbolTable) {x : String} {s : Slot} :
    t.slot? x = some s ↔ ⟨x, s⟩ ∈ t.bindings := by
  simp only [slot?, Option.map_eq_some_iff]
  refine ⟨fun ⟨b, hb, hs⟩ => ?_, fun h => ?_⟩
  · have hx : b.name = x := by simpa using List.find?_some hb
    subst hx hs
    exact List.mem_of_find?_eq_some hb
  · rcases hf : t.bindings.find? fun b => b.name = x with _ | b
    · simpa using List.find?_eq_none.mp hf ⟨x, s⟩ h
    · have hx : b.name = x := by simpa using List.find?_some hf
      have hb := eq_of_name_eq t.distinct (List.mem_of_find?_eq_some hf) h hx
      exact ⟨b, hf, by rw [hb]⟩

theorem name?_eq_some_iff (t : SymbolTable) {x : String} {s : Slot} :
    t.name? s = some x ↔ ⟨x, s⟩ ∈ t.bindings := by
  simp only [name?, Option.map_eq_some_iff]
  refine ⟨fun ⟨b, hb, hx⟩ => ?_, fun h => ?_⟩
  · have hs : b.slot = s := by simpa using List.find?_some hb
    subst hx hs
    exact List.mem_of_find?_eq_some hb
  · rcases hf : t.bindings.find? fun b => b.slot = s with _ | b
    · simpa using List.find?_eq_none.mp hf ⟨x, s⟩ h
    · have hs : b.slot = s := by simpa using List.find?_some hf
      have hb := eq_of_slot_eq t.ascending (List.mem_of_find?_eq_some hf) h hs
      exact ⟨b, hf, by rw [hb]⟩

theorem ascending_slots (t : SymbolTable) : Ascending (t.bindings.map Binding.slot) :=
  List.pairwise_map.mpr t.ascending

/-- The number of variables. -/
def size (t : SymbolTable) : Nat := t.bindings.length

/-- There are no more variables than slots. -/
theorem size_le (t : SymbolTable) : t.size ≤ Slot.total := by
  have hsize := SlotSet.size_le ⟨t.bindings.map Binding.slot, t.ascending_slots⟩
  rwa [OrdSet.size, List.length_map] at hsize

/-- The size of the frame: one more than the highest slot, and room for the argument array. -/
def localCount (t : SymbolTable) : Nat :=
  (t.bindings.getLast?.map fun b => b.slot.index + 1).getD 1

/-- The slot after the highest one in use. -/
def nextSlot? (t : SymbolTable) : Option Slot := Slot.ofIndex? t.localCount

/-- Binds a name to a slot, and tells whether it could: both have to be free. -/
def declareAt (t : SymbolTable) (name : String) (slot : Slot) : SymbolTable × Bool :=
  if h : ∀ b ∈ t.bindings, b.slot ≠ slot ∧ b.name ≠ name then
    ({ bindings := place ⟨name, slot⟩ t.bindings
       ascending := ascending_place t.ascending fun b hb => (h b hb).1
       distinct := distinct_place t.distinct fun b hb => (h b hb).2 }, true)
  else (t, false)

/-- Finds the slot of a name, binding a new name to the slot after the highest one in use.  There
is none after the last slot. -/
def declare (t : SymbolTable) (name : String) : SymbolTable × Option Slot :=
  match t.slot? name with
  | some slot => (t, some slot)
  | none => match t.nextSlot? with
    | some slot => ((t.declareAt name slot).1, some slot)
    | none => (t, none)

/-- Declares names one after the other, leaving out those that find no slot. -/
def declareAll (t : SymbolTable) (names : List String) : SymbolTable :=
  names.foldl (fun t name => (t.declare name).1) t

end SymbolTable

end SlotColoring
