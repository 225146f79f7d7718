/-!
# Ordered sets

A finite set is held as the strictly ascending list of its members.  Sets with the same members
are equal (`OrdSet.ext_mem`), and a set inside another has no more members (`OrdSet.size_le_size`),
with as many only if the two are equal (`OrdSet.size_lt_size`).
-/

namespace SlotColoring

universe u v

variable {α : Type u} {β : Type v}

/-- The order on the members of an ordered set is strict and total. -/
class StrictTotal (α : Type u) [LT α] : Prop where
  irrefl (a : α) : ¬ a < a
  trans {a b c : α} : a < b → b < c → a < c
  trichotomy (a b : α) : a < b ∨ a = b ∨ b < a

instance : StrictTotal Nat := ⟨Nat.lt_irrefl, Nat.lt_trans, Nat.lt_trichotomy⟩

instance : StrictTotal Int := ⟨Int.lt_irrefl, Int.lt_trans, Int.lt_trichotomy⟩

instance : StrictTotal String where
  irrefl := String.lt_irrefl
  trans := String.lt_trans
  trichotomy := Std.lt_trichotomy

/-- A list in strictly ascending order. -/
def Ascending [LT α] (l : List α) : Prop := l.Pairwise (· < ·)

/-- A finite set, listed in strictly ascending order. -/
structure OrdSet (α : Type u) [LT α] where
  toList : List α
  ascending : Ascending toList

/-- Puts `a` in its place in an ascending list that may already hold it. -/
def insertAscending [LT α] [DecidableLT α] (a : α) : List α → List α
  | [] => [a]
  | b :: l => if a < b then a :: b :: l else if b < a then b :: insertAscending a l else b :: l

/-- Merges `a` and what `rest` makes of the members after `a` into an ascending list. -/
def mergeHead [LT α] [DecidableLT α] (a : α) (rest : List α → List α) : List α → List α
  | [] => a :: rest []
  | b :: m =>
    if a < b then a :: rest (b :: m)
    else if b < a then b :: mergeHead a rest m
    else a :: rest m

/-- The members of two ascending lists in ascending order. -/
def mergeAscending [LT α] [DecidableLT α] : List α → List α → List α
  | [] => id
  | a :: l => mergeHead a (mergeAscending l)

section Lists

variable [LT α] [StrictTotal α]

theorem mem_insertAscending [DecidableLT α] {a x : α} :
    ∀ {l : List α}, x ∈ insertAscending a l ↔ x = a ∨ x ∈ l
  | [] => by simp [insertAscending]
  | b :: l => by
    simp only [insertAscending]
    split
    · simp
    · split
      · simp only [List.mem_cons, mem_insertAscending]
        exact or_left_comm
      · rename_i h₁ h₂
        have hab : a = b := by
          rcases StrictTotal.trichotomy a b with h | h | h
          · exact absurd h h₁
          · exact h
          · exact absurd h h₂
        simp [hab]

theorem ascending_insertAscending [DecidableLT α] {a : α} :
    ∀ {l : List α}, Ascending l → Ascending (insertAscending a l)
  | [], _ => by simp [insertAscending, Ascending]
  | b :: l, h => by
    have hb := List.pairwise_cons.mp h
    simp only [insertAscending]
    split
    · rename_i hab
      refine List.pairwise_cons.mpr ⟨fun x hx => ?_, h⟩
      rcases List.mem_cons.mp hx with rfl | hx
      · exact hab
      · exact StrictTotal.trans hab (hb.1 x hx)
    · split
      · rename_i hba
        refine List.pairwise_cons.mpr ⟨fun x hx => ?_, ascending_insertAscending hb.2⟩
        rcases mem_insertAscending.mp hx with rfl | hx
        · exact hba
        · exact hb.1 x hx
      · exact h

theorem mem_mergeHead [DecidableLT α] {a x : α} {rest : List α → List α} {l : List α}
    (h : ∀ m, x ∈ rest m ↔ x ∈ l ∨ x ∈ m) :
    ∀ {m : List α}, x ∈ mergeHead a rest m ↔ x ∈ a :: l ∨ x ∈ m
  | [] => by simp [mergeHead, h]
  | b :: m => by
    simp only [mergeHead]
    split
    · simp [h, or_assoc]
    · split
      · simp only [List.mem_cons, mem_mergeHead h]
        exact or_left_comm
      · rename_i h₁ h₂
        have hab : a = b := by
          rcases StrictTotal.trichotomy a b with h' | h' | h'
          · exact absurd h' h₁
          · exact h'
          · exact absurd h' h₂
        simp only [List.mem_cons, h, hab]
        constructor
        · rintro (h' | h' | h')
          · exact Or.inr (Or.inl h')
          · exact Or.inl (Or.inr h')
          · exact Or.inr (Or.inr h')
        · rintro ((h' | h') | h' | h')
          · exact Or.inl h'
          · exact Or.inr (Or.inl h')
          · exact Or.inl h'
          · exact Or.inr (Or.inr h')

theorem mem_mergeAscending [DecidableLT α] {x : α} :
    ∀ {l m : List α}, x ∈ mergeAscending l m ↔ x ∈ l ∨ x ∈ m
  | [], m => by simp [mergeAscending]
  | a :: l, m => by
    rw [mergeAscending]
    exact mem_mergeHead fun _ => mem_mergeAscending

theorem ascending_mergeHead [DecidableLT α] {a : α} {rest : List α → List α} {l : List α}
    (hl : Ascending (a :: l)) (hmem : ∀ x m, x ∈ rest m ↔ x ∈ l ∨ x ∈ m)
    (hasc : ∀ m, Ascending m → Ascending (rest m)) :
    ∀ {m : List α}, Ascending m → Ascending (mergeHead a rest m)
  | [], h => by
    refine List.pairwise_cons.mpr ⟨fun x hx => ?_, hasc _ h⟩
    rcases (hmem x _).mp hx with hx | hx
    · exact (List.pairwise_cons.mp hl).1 x hx
    · exact absurd hx List.not_mem_nil
  | b :: m, h => by
    have hb := List.pairwise_cons.mp h
    have ha := List.pairwise_cons.mp hl
    simp only [mergeHead]
    split
    · rename_i hab
      refine List.pairwise_cons.mpr ⟨fun x hx => ?_, hasc _ h⟩
      rcases (hmem x _).mp hx with hx | hx
      · exact ha.1 x hx
      · rcases List.mem_cons.mp hx with rfl | hx
        · exact hab
        · exact StrictTotal.trans hab (hb.1 x hx)
    · split
      · rename_i hba
        refine List.pairwise_cons.mpr ⟨fun x hx => ?_, ascending_mergeHead hl hmem hasc hb.2⟩
        rcases (mem_mergeHead (hmem x)).mp hx with hx | hx
        · rcases List.mem_cons.mp hx with rfl | hx
          · exact hba
          · exact StrictTotal.trans hba (ha.1 x hx)
        · exact hb.1 x hx
      · rename_i h₁ h₂
        have hab : a = b := by
          rcases StrictTotal.trichotomy a b with h' | h' | h'
          · exact absurd h' h₁
          · exact h'
          · exact absurd h' h₂
        refine List.pairwise_cons.mpr ⟨fun x hx => ?_, hasc _ hb.2⟩
        rcases (hmem x _).mp hx with hx | hx
        · exact ha.1 x hx
        · rw [hab]
          exact hb.1 x hx

theorem ascending_mergeAscending [DecidableLT α] :
    ∀ {l m : List α}, Ascending l → Ascending m → Ascending (mergeAscending l m)
  | [], _, _, hm => hm
  | a :: l, m, hl, hm => by
    rw [mergeAscending]
    exact ascending_mergeHead hl (fun _ _ => mem_mergeAscending)
      (fun _ => ascending_mergeAscending (List.pairwise_cons.mp hl).2) hm

theorem Ascending.nodup {l : List α} (h : Ascending l) : l.Nodup := by
  refine List.Pairwise.imp (fun {a b} hlt heq => ?_) h
  rw [heq] at hlt
  exact StrictTotal.irrefl b hlt

/-- An ascending list whose members all occur in another ascending list is a sublist of it. -/
theorem Ascending.sublist : ∀ {l m : List α}, Ascending l → Ascending m → (∀ x ∈ l, x ∈ m) →
    l.Sublist m
  | [], _, _, _, _ => List.nil_sublist _
  | a :: l, [], _, _, h => absurd (h a List.mem_cons_self) List.not_mem_nil
  | a :: l, b :: m, hl, hm, h => by
    have hl' := List.pairwise_cons.mp hl
    have hm' := List.pairwise_cons.mp hm
    rcases List.mem_cons.mp (h a List.mem_cons_self) with rfl | ha
    · refine List.Sublist.cons_cons _ (Ascending.sublist hl'.2 hm'.2 fun x hx => ?_)
      rcases List.mem_cons.mp (h x (List.mem_cons_of_mem _ hx)) with rfl | hx'
      · exact absurd (hl'.1 _ hx) (StrictTotal.irrefl _)
      · exact hx'
    · refine List.Sublist.cons _ (Ascending.sublist hl hm'.2 fun x hx => ?_)
      rcases List.mem_cons.mp (h x hx) with rfl | hx'
      · rcases List.mem_cons.mp hx with rfl | hx
        · exact ha
        · exact absurd (StrictTotal.trans (hl'.1 _ hx) (hm'.1 a ha)) (StrictTotal.irrefl _)
      · exact hx'

/-- Ascending lists with the same members are equal. -/
theorem Ascending.eq_of_mem_iff {l m : List α} (hl : Ascending l) (hm : Ascending m)
    (h : ∀ x, x ∈ l ↔ x ∈ m) : l = m := by
  have hlm := hl.sublist hm fun x => (h x).mp
  have hml := hm.sublist hl fun x => (h x).mpr
  exact hlm.eq_of_length (Nat.le_antisymm hlm.length_le hml.length_le)

end Lists

namespace OrdSet

variable [LT α]

instance : Membership α (OrdSet α) := ⟨fun s a => a ∈ s.toList⟩

instance [DecidableEq α] (a : α) (s : OrdSet α) : Decidable (a ∈ s) :=
  inferInstanceAs (Decidable (a ∈ s.toList))

instance : HasSubset (OrdSet α) := ⟨fun s t => ∀ a ∈ s, a ∈ t⟩

instance : EmptyCollection (OrdSet α) := ⟨⟨[], List.Pairwise.nil⟩⟩

instance : Inhabited (OrdSet α) := ⟨∅⟩

/-- The number of members. -/
def size (s : OrdSet α) : Nat := s.toList.length

/-- The set of the one member `a`. -/
def singleton (a : α) : OrdSet α := ⟨[a], List.pairwise_singleton _ _⟩

/-- The members that pass a test. -/
def filter (p : α → Bool) (s : OrdSet α) : OrdSet α :=
  ⟨s.toList.filter p, s.ascending.filter p⟩

/-- The members other than `a`. -/
def erase [DecidableEq α] (s : OrdSet α) (a : α) : OrdSet α := s.filter (· ≠ a)

@[simp] theorem mem_toList {a : α} {s : OrdSet α} : a ∈ s.toList ↔ a ∈ s := Iff.rfl

@[simp] theorem not_mem_empty {a : α} : a ∉ (∅ : OrdSet α) := List.not_mem_nil

@[simp] theorem mem_singleton {a b : α} : a ∈ singleton b ↔ a = b := List.mem_singleton

@[simp] theorem mem_filter {p : α → Bool} {s : OrdSet α} {a : α} :
    a ∈ s.filter p ↔ a ∈ s ∧ p a = true := List.mem_filter

@[simp] theorem mem_erase [DecidableEq α] {s : OrdSet α} {a b : α} :
    b ∈ s.erase a ↔ b ∈ s ∧ b ≠ a := by simp [erase]

theorem toList_injective : ∀ {s t : OrdSet α}, s.toList = t.toList → s = t
  | ⟨_, _⟩, ⟨_, _⟩, rfl => rfl

instance [DecidableEq α] : DecidableEq (OrdSet α) := fun _ _ =>
  decidable_of_iff _ ⟨toList_injective, congrArg toList⟩

variable [StrictTotal α]

/-- Sets with the same members are equal. -/
theorem ext_mem {s t : OrdSet α} (h : ∀ a, a ∈ s ↔ a ∈ t) : s = t :=
  toList_injective (s.ascending.eq_of_mem_iff t.ascending h)

theorem size_le_size {s t : OrdSet α} (h : s ⊆ t) : s.size ≤ t.size :=
  (s.ascending.sublist t.ascending h).length_le

theorem size_lt_size {s t : OrdSet α} (h : s ⊆ t) (hne : s ≠ t) : s.size < t.size := by
  have hsub := s.ascending.sublist t.ascending h
  refine Nat.lt_of_le_of_ne hsub.length_le fun hlen => hne ?_
  exact toList_injective (hsub.eq_of_length hlen)

variable [DecidableLT α]

/-- The set with `a` added. -/
def insert (s : OrdSet α) (a : α) : OrdSet α :=
  ⟨insertAscending a s.toList, ascending_insertAscending s.ascending⟩

/-- The members of either set. -/
def union (s t : OrdSet α) : OrdSet α :=
  ⟨mergeAscending s.toList t.toList, ascending_mergeAscending s.ascending t.ascending⟩

/-- The set of a list's members. -/
def ofList (l : List α) : OrdSet α := l.foldl insert ∅

/-- The union of the sets that `f` gives on a list. -/
def gather (f : β → OrdSet α) (l : List β) : OrdSet α := l.foldl (fun s b => s.union (f b)) ∅

@[simp] theorem mem_insert {s : OrdSet α} {a b : α} : b ∈ s.insert a ↔ b = a ∨ b ∈ s :=
  mem_insertAscending

theorem mem_foldl_insert {b : α} : ∀ {l : List α} {s : OrdSet α},
    b ∈ l.foldl insert s ↔ b ∈ s ∨ b ∈ l
  | [], s => by simp
  | a :: l, s => by
    rw [List.foldl_cons, mem_foldl_insert, mem_insert, List.mem_cons]
    constructor
    · rintro ((h | h) | h)
      · exact Or.inr (Or.inl h)
      · exact Or.inl h
      · exact Or.inr (Or.inr h)
    · rintro (h | h | h)
      · exact Or.inl (Or.inr h)
      · exact Or.inl (Or.inl h)
      · exact Or.inr h

@[simp] theorem mem_union {s t : OrdSet α} {b : α} : b ∈ s.union t ↔ b ∈ s ∨ b ∈ t :=
  mem_mergeAscending

@[simp] theorem mem_ofList {l : List α} {b : α} : b ∈ ofList l ↔ b ∈ l := by
  simp [ofList, mem_foldl_insert]

/-- A list is sorted by making a set of it; what comes twice is kept once. -/
example : (ofList ([3, -5, 0, 3, -7] : List Int)).toList = [-7, -5, 0, 3] := by decide

theorem mem_foldl_union {f : β → OrdSet α} {a : α} : ∀ {l : List β} {s : OrdSet α},
    a ∈ l.foldl (fun s b => s.union (f b)) s ↔ a ∈ s ∨ ∃ b ∈ l, a ∈ f b
  | [], s => by simp
  | b :: l, s => by
    rw [List.foldl_cons, mem_foldl_union, mem_union, or_assoc]
    simp

@[simp] theorem mem_gather {f : β → OrdSet α} {l : List β} {a : α} :
    a ∈ gather f l ↔ ∃ b ∈ l, a ∈ f b := by
  simp [gather, mem_foldl_union]

end OrdSet

end SlotColoring
