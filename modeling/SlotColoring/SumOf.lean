/-!
# Sums over lists
-/

namespace SlotColoring

universe u v

variable {α : Type u} {β : Type v}

/-- The sum of what `f` gives on the members of a list. -/
def sumOf (f : α → Nat) : List α → Nat
  | [] => 0
  | a :: l => f a + sumOf f l

theorem sumOf_append (f : α → Nat) : ∀ l m : List α, sumOf f (l ++ m) = sumOf f l + sumOf f m
  | [], m => by simp [sumOf]
  | a :: l, m => by
    simp only [List.cons_append, sumOf, sumOf_append f l m]
    omega

theorem sumOf_map (f : β → Nat) (h : α → β) : ∀ l : List α,
    sumOf f (l.map h) = sumOf (fun a => f (h a)) l
  | [] => rfl
  | a :: l => by rw [List.map_cons, sumOf, sumOf, sumOf_map f h l]

theorem sumOf_congr {f g : α → Nat} : ∀ {l : List α}, (∀ a ∈ l, f a = g a) →
    sumOf f l = sumOf g l
  | [], _ => rfl
  | a :: l, h => by
    rw [sumOf, sumOf, h a List.mem_cons_self,
      sumOf_congr fun c hc => h c (List.mem_cons_of_mem _ hc)]

/-- Replacing a member replaces its share. -/
theorem sumOf_set (f : α → Nat) (a : α) : ∀ (l : List α) (i : Nat) (h : i < l.length),
    sumOf f (l.set i a) + f l[i] = sumOf f l + f a
  | [], _, h => absurd h (Nat.not_lt_zero _)
  | b :: l, 0, _ => by
    simp only [List.set_cons_zero, sumOf, List.getElem_cons_zero]
    omega
  | b :: l, i + 1, h => by
    have ih := sumOf_set f a l i (Nat.lt_of_succ_lt_succ h)
    simp only [List.set_cons_succ, sumOf, List.getElem_cons_succ]
    omega

theorem sumOf_le {f : α → Nat} {b : Nat} : ∀ {l : List α}, (∀ a ∈ l, f a ≤ b) →
    sumOf f l ≤ b * l.length
  | [], _ => by simp [sumOf]
  | a :: l, h => by
    have ih := sumOf_le fun c hc => h c (List.mem_cons_of_mem _ hc)
    have ha := h a List.mem_cons_self
    simp only [sumOf, List.length_cons, Nat.mul_succ]
    omega

end SlotColoring
