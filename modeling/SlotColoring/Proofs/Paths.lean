import Mathlib.Logic.Relation
import SlotColoring.Digraph

/-!
# Paths in directed graphs

A path may be asked to keep to given vertices between its ends (`Digraph.Via`).  Taking vertices
out of a graph leaves exactly the paths between the others, now with the removed vertices allowed
on the way (`via_foldl_contract`).  The closure of a worklist under edges is what the worklist
reaches along them (`mem_closure`): a path that comes back to a visited vertex is cut at its last
visit, after which the edges of that vertex are not needed any more.  So the vertices reachable from
one are those at the end of a path from it (`mem_reachableFrom`).
-/

namespace SlotColoring.Digraph

open Relation (ReflTransGen TransGen)

/-- A path of one or more edges from one vertex to another whose inner vertices all satisfy `S`. -/
inductive Via (g : Digraph) (S : Nat → Prop) : Nat → Nat → Prop
  | edge {a b : Nat} : g.Adj a b → Via g S a b
  | step {a m b : Nat} : g.Adj a m → S m → Via g S m b → Via g S a b

section Contract

variable {g : Digraph} {S : Nat → Prop}

theorem Via.trans {a m b : Nat} (h : g.Via S a m) (hm : S m) (h' : g.Via S m b) :
    g.Via S a b := by
  induction h with
  | edge h => exact .step h hm h'
  | step h hn _ ih => exact .step h hn (ih hm h')

theorem Via.of_adj_contract {r a b : Nat} (h : (g.contract r).Adj a b) :
    g.Via (fun m => m = r ∨ S m) a b := by
  obtain ⟨-, -, h | ⟨h, h'⟩⟩ := adj_contract.mp h
  · exact .edge h
  · exact .step h (Or.inl rfl) (.edge h')

theorem Via.of_contract {r a b : Nat} (h : (g.contract r).Via S a b) :
    a ≠ r ∧ b ≠ r ∧ g.Via (fun m => m = r ∨ S m) a b := by
  induction h with
  | edge h =>
    obtain ⟨ha, hb, -⟩ := adj_contract.mp h
    exact ⟨ha, hb, .of_adj_contract h⟩
  | step h hm _ ih =>
    obtain ⟨ha, -, -⟩ := adj_contract.mp h
    exact ⟨ha, ih.2.1, (Via.of_adj_contract h).trans (Or.inr hm) ih.2.2⟩

/-- A path from the removed vertex goes on, in the contracted graph, from whatever led there. -/
theorem Via.contract {r a b : Nat} (h : g.Via (fun m => m = r ∨ S m) a b) (hb : b ≠ r) :
    (a ≠ r → (g.contract r).Via S a b)
      ∧ (a = r → ∀ p, p ≠ r → g.Adj p r → (g.contract r).Via S p b) := by
  induction h with
  | @edge a b h =>
    refine ⟨fun ha => .edge (adj_contract.mpr ⟨ha, hb, Or.inl h⟩), ?_⟩
    rintro rfl p hp hpr
    exact .edge (adj_contract.mpr ⟨hp, hb, Or.inr ⟨hpr, h⟩⟩)
  | @step a m b h hm _ ih =>
    obtain ⟨ihne, iheq⟩ := ih hb
    by_cases hmr : m = r
    · subst hmr
      refine ⟨fun ha => iheq rfl a ha h, ?_⟩
      rintro rfl p hp hpr
      exact iheq rfl p hp hpr
    · have hSm : S m := hm.resolve_left hmr
      have hmb := ihne hmr
      refine ⟨fun ha => .step (adj_contract.mpr ⟨ha, hmr, Or.inl h⟩) hSm hmb, ?_⟩
      rintro rfl p hp hpr
      exact .step (adj_contract.mpr ⟨hp, hmr, Or.inr ⟨hpr, h⟩⟩) hSm hmb

theorem via_contract {r a b : Nat} : (g.contract r).Via S a b ↔
    a ≠ r ∧ b ≠ r ∧ g.Via (fun m => m = r ∨ S m) a b :=
  ⟨Via.of_contract, fun ⟨ha, hb, h⟩ => (h.contract hb).1 ha⟩

/-- The paths that are left when some vertices are taken out one after the other. -/
theorem via_foldl_contract {a b : Nat} : ∀ (rs : List Nat) {g : Digraph},
    (rs.foldl Digraph.contract g).Via S a b ↔
      a ∉ rs ∧ b ∉ rs ∧ g.Via (fun m => m ∈ rs ∨ S m) a b
  | [], g => by simp
  | r :: rs, g => by
    have hset : (fun m => m = r ∨ m ∈ rs ∨ S m) = fun m => m ∈ r :: rs ∨ S m := by
      funext m
      rw [List.mem_cons, or_assoc]
    rw [List.foldl_cons, via_foldl_contract rs, via_contract, hset, List.mem_cons, List.mem_cons,
      not_or, not_or]
    constructor
    · rintro ⟨ha, hb, har, hbr, h⟩
      exact ⟨⟨har, ha⟩, ⟨hbr, hb⟩, h⟩
    · rintro ⟨⟨har, ha⟩, ⟨hbr, hb⟩, h⟩
      exact ⟨ha, hb, har, hbr, h⟩

theorem via_iff_exists {a b : Nat} : g.Via S a b ↔
    ∃ c, g.Adj a c ∧ ReflTransGen (fun u v => g.Adj u v ∧ S u) c b := by
  constructor
  · intro h
    induction h with
    | edge h => exact ⟨_, h, .refl⟩
    | step h hm _ ih =>
      obtain ⟨c, hc, hcb⟩ := ih
      exact ⟨_, h, .head ⟨hc, hm⟩ hcb⟩
  · rintro ⟨c, hc, hcb⟩
    induction hcb using ReflTransGen.head_induction_on generalizing a with
    | refl => exact .edge hc
    | head h _ ih => exact .step hc h.2 (ih h.1)

theorem via_false {a b : Nat} : g.Via (fun _ => False) a b ↔ g.Adj a b := by
  refine ⟨fun h => ?_, .edge⟩
  cases h with
  | edge h => exact h
  | step _ hm _ => exact absurd hm id

theorem via_true {a b : Nat} : g.Via (fun _ => True) a b ↔ TransGen g.Adj a b := by
  simp only [via_iff_exists, and_true]
  exact TransGen.head'_iff.symm

end Contract

section Closure

variable {edges : List (Nat × Nat)}

/-- A path either does without the edges that leave `a`, or ends at `a`, or leaves `a` for the
last time and does without them from there on. -/
theorem reach_cut (a : Nat) {c b : Nat} (h : ReflTransGen (fun u v => (u, v) ∈ edges) c b) :
    b = a ∨ ∃ d, (d = c ∨ d ∈ targets edges a)
      ∧ ReflTransGen (fun u v => (u, v) ∈ startingElsewhere edges a) d b := by
  induction h using ReflTransGen.head_induction_on with
  | refl => exact Or.inr ⟨b, Or.inl rfl, .refl⟩
  | @head c m hcm _ ih =>
    rcases ih with rfl | ⟨d, hd, hdb⟩
    · exact Or.inl rfl
    · rcases hd with rfl | hd
      · by_cases hca : c = a
        · subst hca
          exact Or.inr ⟨d, Or.inr (mem_targets.mpr hcm), hdb⟩
        · exact Or.inr ⟨c, Or.inl rfl, .head (mem_startingElsewhere.mpr ⟨hcm, hca⟩) hdb⟩
      · exact Or.inr ⟨d, Or.inr hd, hdb⟩

theorem reach_of_startingElsewhere {a c b : Nat}
    (h : ReflTransGen (fun u v => (u, v) ∈ startingElsewhere edges a) c b) :
    ReflTransGen (fun u v => (u, v) ∈ edges) c b :=
  ReflTransGen.mono (fun _ _ he => (mem_startingElsewhere.mp he).1) _ _ h

theorem mem_closure {b : Nat} (edges : List (Nat × Nat)) (todo : List Nat) (seen : OrdSet Nat) :
    b ∈ closure edges todo seen ↔
      b ∈ seen ∨ ∃ c ∈ todo, ReflTransGen (fun u v => (u, v) ∈ edges) c b := by
  fun_induction closure edges todo seen with
  | case1 edges seen => simp
  | case2 edges seen a todo ih =>
    rw [ih, OrdSet.mem_insert]
    constructor
    · rintro ((rfl | hb) | ⟨c, hc, hcb⟩)
      · exact Or.inr ⟨b, List.mem_cons_self, .refl⟩
      · exact Or.inl hb
      · have hcb' := reach_of_startingElsewhere hcb
        rcases List.mem_append.mp hc with hc | hc
        · exact Or.inr ⟨a, List.mem_cons_self, .head (mem_targets.mp hc) hcb'⟩
        · exact Or.inr ⟨c, List.mem_cons_of_mem _ hc, hcb'⟩
    · rintro (hb | ⟨c, hc, hcb⟩)
      · exact Or.inl (Or.inr hb)
      · rcases reach_cut a hcb with rfl | ⟨d, hd, hdb⟩
        · exact Or.inl (Or.inl rfl)
        · rcases hd with rfl | hd
          · rcases List.mem_cons.mp hc with rfl | hc
            · -- a path from `a` that does without the edges of `a` stays there
              rcases ReflTransGen.cases_head hdb with rfl | ⟨e, he, -⟩
              · exact Or.inl (Or.inl rfl)
              · exact absurd rfl (mem_startingElsewhere.mp he).2
            · exact Or.inr ⟨d, List.mem_append_right _ hc, hdb⟩
          · exact Or.inr ⟨d, List.mem_append_left _ hd, hdb⟩

theorem mem_reachableFrom {g : Digraph} {a b : Nat} :
    b ∈ g.reachableFrom a ↔ TransGen g.Adj a b := by
  rw [reachableFrom, mem_closure, TransGen.head'_iff]
  constructor
  · rintro (hb | ⟨c, hc, hcb⟩)
    · simp at hb
    · exact ⟨c, mem_succs.mp hc, hcb⟩
  · rintro ⟨c, hc, hcb⟩
    exact Or.inr ⟨c, mem_succs.mpr hc, hcb⟩

end Closure

end SlotColoring.Digraph
