import Mathlib.Logic.Function.Basic
import SlotColoring.BlockGraph.Basic

/-!
# Edges that are kept at both ends

A graph may keep each edge twice, in the successors of one vertex and in the predecessors of the
other (`TwoEnded`).  Nothing in its form makes the two agree; every operation has to change both.
`TwoEnded.Keeps` says that either end shows the edges of one relation.  It goes on to hold as edges
are added and taken away, and as vertices are taken out, so a graph whose edges are kept twice can
be purged in the same way as one with a single list of edges (`BlockGraph.Indexed.purge`).
-/

namespace SlotColoring

/-- A directed graph that keeps each edge at both of its ends. -/
structure TwoEnded where
  succs : Nat → OrdSet Nat
  preds : Nat → OrdSet Nat

namespace TwoEnded

instance : EmptyCollection TwoEnded := ⟨⟨fun _ => ∅, fun _ => ∅⟩⟩

/-- Adds an edge at both ends. -/
def link (g : TwoEnded) (a b : Nat) : TwoEnded where
  succs := Function.update g.succs a ((g.succs a).insert b)
  preds := Function.update g.preds b ((g.preds b).insert a)

/-- Takes away an edge at both ends. -/
def unlink (g : TwoEnded) (a b : Nat) : TwoEnded where
  succs := Function.update g.succs a ((g.succs a).erase b)
  preds := Function.update g.preds b ((g.preds b).erase a)

/-- Adds edges one after the other. -/
def linkAll (g : TwoEnded) (es : List (Nat × Nat)) : TwoEnded :=
  es.foldl (fun g e => g.link e.1 e.2) g

/-- Takes away edges one after the other. -/
def unlinkAll (g : TwoEnded) (es : List (Nat × Nat)) : TwoEnded :=
  es.foldl (fun g e => g.unlink e.1 e.2) g

/-- Takes `b` out of the graph: its edges are taken away one after the other, and then what led to
`b` is joined to whatever followed `b`. -/
def contract (g : TwoEnded) (b : Nat) : TwoEnded :=
  let before := (g.preds b).toList
  let after := (g.succs b).toList
  ((g.unlinkAll (before.map fun p => (p, b))).unlinkAll (after.map fun s => (b, s))).linkAll
    ((before.filter fun p => p ≠ b).flatMap fun p =>
      (after.filter fun s => s ≠ b).map fun s => (p, s))

/-- The edges of the graph, seen from either end, are those of the relation. -/
structure Keeps (g : TwoEnded) (r : Nat → Nat → Prop) : Prop where
  succs : ∀ a b, b ∈ g.succs a ↔ r a b
  preds : ∀ a b, a ∈ g.preds b ↔ r a b

variable {g : TwoEnded} {r r' : Nat → Nat → Prop}

theorem keeps_empty : Keeps ∅ fun _ _ => False :=
  ⟨fun _ _ => iff_false_intro OrdSet.not_mem_empty, fun _ _ => iff_false_intro OrdSet.not_mem_empty⟩

namespace Keeps

theorem converse (h : g.Keeps r) (a b : Nat) : b ∈ g.succs a ↔ a ∈ g.preds b :=
  (h.succs a b).trans (h.preds a b).symm

theorem congr (h : g.Keeps r) (hr : ∀ x y, r x y ↔ r' x y) : g.Keeps r' :=
  ⟨fun x y => (h.succs x y).trans (hr x y), fun x y => (h.preds x y).trans (hr x y)⟩

theorem link (h : g.Keeps r) (a b : Nat) :
    (g.link a b).Keeps fun x y => (x = a ∧ y = b) ∨ r x y := by
  refine ⟨fun x y => ?_, fun x y => ?_⟩
  · by_cases hx : x = a
    · simp [TwoEnded.link, hx, h.succs]
    · simp [TwoEnded.link, hx, h.succs]
  · by_cases hy : y = b
    · simp [TwoEnded.link, hy, h.preds]
    · simp [TwoEnded.link, hy, h.preds]

theorem unlink (h : g.Keeps r) (a b : Nat) :
    (g.unlink a b).Keeps fun x y => ¬ (x = a ∧ y = b) ∧ r x y := by
  refine ⟨fun x y => ?_, fun x y => ?_⟩
  · by_cases hx : x = a
    · simp [TwoEnded.unlink, hx, h.succs, and_comm]
    · simp [TwoEnded.unlink, hx, h.succs]
  · by_cases hy : y = b
    · simp [TwoEnded.unlink, hy, h.preds, and_comm]
    · simp [TwoEnded.unlink, hy, h.preds]

theorem linkAll (h : g.Keeps r) (es : List (Nat × Nat)) :
    (g.linkAll es).Keeps fun x y => (x, y) ∈ es ∨ r x y := by
  induction es generalizing g r with
  | nil => exact h.congr fun x y => by simp
  | cons e es ih =>
    refine (ih (h.link e.1 e.2)).congr fun x y => ?_
    rw [List.mem_cons, Prod.ext_iff, or_left_comm, or_assoc]

theorem unlinkAll (h : g.Keeps r) (es : List (Nat × Nat)) :
    (g.unlinkAll es).Keeps fun x y => (x, y) ∉ es ∧ r x y := by
  induction es generalizing g r with
  | nil => exact h.congr fun x y => by simp
  | cons e es ih =>
    refine (ih (h.unlink e.1 e.2)).congr fun x y => ?_
    rw [List.mem_cons, Prod.ext_iff, not_or, and_left_comm, and_assoc]

theorem contract (h : g.Keeps r) (b : Nat) :
    (g.contract b).Keeps fun x y => x ≠ b ∧ y ≠ b ∧ (r x y ∨ (r x b ∧ r b y)) := by
  refine (((h.unlinkAll _).unlinkAll _).linkAll _).congr fun x y => ?_
  simp only [List.mem_flatMap, List.mem_filter, List.mem_map, OrdSet.mem_toList, h.preds, h.succs,
    decide_eq_true_eq, Prod.mk.injEq]
  refine ⟨fun hxy => ?_, fun hxy => ?_⟩
  · rcases hxy with ⟨p, ⟨hp, hpb⟩, s, ⟨hs, hsb⟩, rfl, rfl⟩ | ⟨hafter, hbefore, hxy⟩
    · exact ⟨hpb, hsb, Or.inr ⟨hp, hs⟩⟩
    · refine ⟨fun hx => hafter ⟨y, hx ▸ hxy, hx.symm, rfl⟩, fun hy => ?_, Or.inl hxy⟩
      exact hbefore ⟨x, hy ▸ hxy, rfl, hy.symm⟩
  · obtain ⟨hx, hy, hxy | ⟨hxb, hby⟩⟩ := hxy
    · refine Or.inr ⟨fun hafter => ?_, fun hbefore => ?_, hxy⟩
      · obtain ⟨s, -, hs, -⟩ := hafter
        exact hx hs.symm
      · obtain ⟨p, -, -, hp⟩ := hbefore
        exact hy hp.symm
    · exact Or.inl ⟨x, ⟨hxb, hx⟩, y, ⟨hby, hy⟩, rfl, rfl⟩

/-- The graph with one list of edges and the one that keeps them twice stay in step. -/
theorem link_adj {d : Digraph} (h : g.Keeps d.Adj) (a b : Nat) :
    (g.link a b).Keeps (d.link a b).Adj :=
  (h.link a b).congr fun _ _ => Digraph.adj_link.symm

theorem linkInto_adj (b : Nat) : ∀ (froms : List Nat) {g : TwoEnded} {d : Digraph},
    g.Keeps d.Adj → (froms.foldl (fun g a => g.link a b) g).Keeps
      (froms.foldl (fun d a => d.link a b) d).Adj
  | [], _, _, h => h
  | a :: froms, _, _, h => linkInto_adj b froms (h.link_adj a b)

theorem contractAll_adj : ∀ (bs : List Nat) {g : TwoEnded} {d : Digraph}, g.Keeps d.Adj →
    (bs.foldl TwoEnded.contract g).Keeps (bs.foldl Digraph.contract d).Adj
  | [], _, _, h => h
  | b :: bs, _, _, h =>
    contractAll_adj bs ((h.contract b).congr fun _ _ => Digraph.adj_contract.symm)

end Keeps

end TwoEnded

/-- A control-flow graph that keeps its edges at both ends. -/
structure IndexedGraph where
  head : Head
  blocks : List Block
  flow : TwoEnded

/-- The graph without its removable blocks, which are taken out one after the other. -/
def IndexedGraph.purge (g : IndexedGraph) : IndexedGraph :=
  { g with
    blocks := g.blocks.filter fun b => !b.isRemovable
    flow := ((g.blocks.filter Block.isRemovable).map Block.id).foldl TwoEnded.contract g.flow }

/-- The two graphs have the same blocks and edges. -/
structure BlockGraph.Indexed (g : BlockGraph) (i : IndexedGraph) : Prop where
  head : i.head = g.head
  blocks : i.blocks = g.blocks
  flow : i.flow.Keeps g.flow.Adj

theorem BlockGraph.Indexed.purge {g : BlockGraph} {i : IndexedGraph} (h : g.Indexed i) :
    g.purge.Indexed i.purge := by
  refine ⟨h.head, congrArg _ h.blocks, ?_⟩
  show (List.foldl TwoEnded.contract i.flow _).Keeps _
  rw [h.blocks]
  exact h.flow.contractAll_adj _

end SlotColoring
