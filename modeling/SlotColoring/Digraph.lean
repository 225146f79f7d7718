import SlotColoring.OrdSet

/-!
# Directed graphs

A directed graph on numbered vertices is its list of edges; successors and predecessors are views
of that list (`mem_succs`, `mem_preds`), so they are converse to each other.  Taking a vertex out
of the graph joins each of its predecessors to each of its successors (`adj_contract`).
-/

namespace SlotColoring

/-- A directed graph, given by its edges. -/
structure Digraph where
  edges : List (Nat × Nat)
deriving DecidableEq

namespace Digraph

instance : EmptyCollection Digraph := ⟨⟨[]⟩⟩

/-- There is an edge from `a` to `b`. -/
def Adj (g : Digraph) (a b : Nat) : Prop := (a, b) ∈ g.edges

instance (g : Digraph) (a b : Nat) : Decidable (g.Adj a b) :=
  inferInstanceAs (Decidable ((a, b) ∈ g.edges))

/-- Adds an edge. -/
def link (g : Digraph) (a b : Nat) : Digraph :=
  if g.Adj a b then g else ⟨(a, b) :: g.edges⟩

/-- The ends of the edges that start at `a`. -/
def targets (edges : List (Nat × Nat)) (a : Nat) : List Nat :=
  (edges.filter fun e => e.1 = a).map Prod.snd

/-- The starts of the edges that end at `b`. -/
def sources (edges : List (Nat × Nat)) (b : Nat) : List Nat :=
  (edges.filter fun e => e.2 = b).map Prod.fst

/-- The edges that start elsewhere than at `a`. -/
def startingElsewhere (edges : List (Nat × Nat)) (a : Nat) : List (Nat × Nat) :=
  edges.filter fun e => e.1 ≠ a

theorem mem_targets {edges : List (Nat × Nat)} {a b : Nat} :
    b ∈ targets edges a ↔ (a, b) ∈ edges := by
  simp only [targets, List.mem_map, List.mem_filter, decide_eq_true_eq]
  constructor
  · rintro ⟨⟨x, y⟩, ⟨he, rfl⟩, rfl⟩
    exact he
  · exact fun h => ⟨(a, b), ⟨h, rfl⟩, rfl⟩

theorem mem_sources {edges : List (Nat × Nat)} {a b : Nat} :
    a ∈ sources edges b ↔ (a, b) ∈ edges := by
  simp only [sources, List.mem_map, List.mem_filter, decide_eq_true_eq]
  constructor
  · rintro ⟨⟨x, y⟩, ⟨he, rfl⟩, rfl⟩
    exact he
  · exact fun h => ⟨(a, b), ⟨h, rfl⟩, rfl⟩

theorem mem_startingElsewhere {edges : List (Nat × Nat)} {a : Nat} {e : Nat × Nat} :
    e ∈ startingElsewhere edges a ↔ e ∈ edges ∧ e.1 ≠ a := by
  simp [startingElsewhere]

/-- Every edge starts at `a` or elsewhere. -/
theorem length_targets_add (a : Nat) : ∀ edges : List (Nat × Nat),
    (targets edges a).length + (startingElsewhere edges a).length = edges.length
  | [] => rfl
  | e :: edges => by
    have ih := length_targets_add a edges
    simp only [targets, startingElsewhere, List.length_map] at ih ⊢
    by_cases h : e.1 = a <;> simp [h] at ih ⊢ <;> omega

/-- The vertices that an edge from `a` leads to. -/
def succs (g : Digraph) (a : Nat) : OrdSet Nat := .ofList (targets g.edges a)

/-- The vertices that an edge to `b` comes from. -/
def preds (g : Digraph) (b : Nat) : OrdSet Nat := .ofList (sources g.edges b)

/-- Takes `b` out of the graph: its own edges go, and what led to `b` now leads to whatever
followed `b`. -/
def contract (g : Digraph) (b : Nat) : Digraph :=
  let bridges := (g.preds b).toList.flatMap fun p => (g.succs b).toList.map fun s => (p, s)
  (bridges.filter fun e => e.1 ≠ b ∧ e.2 ≠ b).foldl (fun g e => g.link e.1 e.2)
    ⟨g.edges.filter fun e => e.1 ≠ b ∧ e.2 ≠ b⟩

/-- What `todo` reaches along the edges, together with `seen`.  Each step visits one vertex and
uses up the edges that leave it, so no edge is followed twice. -/
def closure (edges : List (Nat × Nat)) (todo : List Nat) (seen : OrdSet Nat) : OrdSet Nat :=
  match todo with
  | [] => seen
  | a :: todo =>
    closure (startingElsewhere edges a) (targets edges a ++ todo) (seen.insert a)
termination_by edges.length + todo.length
decreasing_by
  have h := length_targets_add a edges
  simp only [List.length_append, List.length_cons]
  omega

/-- The vertices at the end of a path of one or more edges from `a`. -/
def reachableFrom (g : Digraph) (a : Nat) : OrdSet Nat := closure g.edges (g.succs a).toList ∅

@[simp] theorem mem_succs {g : Digraph} {a b : Nat} : b ∈ g.succs a ↔ g.Adj a b := by
  simp [succs, mem_targets, Adj]

@[simp] theorem mem_preds {g : Digraph} {a b : Nat} : a ∈ g.preds b ↔ g.Adj a b := by
  simp [preds, mem_sources, Adj]

@[simp] theorem adj_link {g : Digraph} {a b x y : Nat} :
    (g.link a b).Adj x y ↔ (x = a ∧ y = b) ∨ g.Adj x y := by
  simp only [link]
  split
  · rename_i h
    constructor
    · exact Or.inr
    · rintro (⟨rfl, rfl⟩ | h')
      · exact h
      · exact h'
  · simp [Adj, Prod.ext_iff]

theorem adj_foldl_link {x y : Nat} : ∀ {l : List (Nat × Nat)} {g : Digraph},
    (l.foldl (fun g e => g.link e.1 e.2) g).Adj x y ↔ (x, y) ∈ l ∨ g.Adj x y
  | [], g => by simp
  | e :: l, g => by
    rw [List.foldl_cons, adj_foldl_link, adj_link, List.mem_cons, Prod.ext_iff, or_left_comm,
      or_assoc]

theorem adj_contract {g : Digraph} {b x y : Nat} : (g.contract b).Adj x y ↔
    x ≠ b ∧ y ≠ b ∧ (g.Adj x y ∨ (g.Adj x b ∧ g.Adj b y)) := by
  simp only [contract, adj_foldl_link, List.mem_filter, List.mem_flatMap, List.mem_map,
    OrdSet.mem_toList, mem_preds, mem_succs, decide_eq_true_eq]
  constructor
  · rintro (⟨⟨p, hp, s, hs, he⟩, hx, hy⟩ | h)
    · obtain ⟨rfl, rfl⟩ := Prod.mk.inj he
      exact ⟨hx, hy, Or.inr ⟨hp, hs⟩⟩
    · have h' := List.mem_filter.mp h
      have hne := of_decide_eq_true h'.2
      exact ⟨hne.1, hne.2, Or.inl h'.1⟩
  · rintro ⟨hx, hy, h | ⟨hp, hs⟩⟩
    · exact Or.inr (List.mem_filter.mpr ⟨h, decide_eq_true ⟨hx, hy⟩⟩)
    · exact Or.inl ⟨⟨x, hp, y, hs, rfl⟩, hx, hy⟩

end Digraph

end SlotColoring
