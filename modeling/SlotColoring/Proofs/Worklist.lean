import Mathlib.Data.List.Chain
import Mathlib.Data.List.Perm.Subperm
import SlotColoring.Proofs.BlockEdges

/-!
# Searching with a worklist

A search for all that can be reached keeps a stack of vertices to look at and the set of those it
has seen, and puts the successors of a new vertex on the stack in whatever order they come
(`Search.Step`).  What is on the stack or seen can be reached, and an edge from a seen vertex leads
to one that is seen or still on the stack (`Search.Sound`); so a path leaves the seen vertices only
through the stack, and when that is empty they are all that can be reached
(`Search.Sound.seen_eq`).  The stack may grow on the way, but each edge is put on it only once, so
no search goes on for ever (`Search.Runs.length_le`).
-/

namespace SlotColoring

open Relation (TransGen)

/-- A search under way: the vertices to look at, the next one first, and those already seen. -/
structure Search where
  stack : List Nat
  seen : OrdSet Nat
deriving DecidableEq

namespace Search

/-- The next vertex is taken off the stack.  If it is new, it is seen now, and its successors are
put on the stack in some order. -/
inductive Step (g : Digraph) : Search → Search → Prop
  | again {a : Nat} {stack : List Nat} {seen : OrdSet Nat} : a ∈ seen →
      Step g ⟨a :: stack, seen⟩ ⟨stack, seen⟩
  | first {a : Nat} {stack order : List Nat} {seen : OrdSet Nat} : a ∉ seen →
      order.Perm (g.succs a).toList → Step g ⟨a :: stack, seen⟩ ⟨order ++ stack, seen.insert a⟩

/-- A number of steps leads from the first search to the second. -/
inductive Runs (g : Digraph) : Search → Nat → Search → Prop
  | stop {s : Search} : Runs g s 0 s
  | more {s t u : Search} {n : Nat} : Step g s t → Runs g t n u → Runs g s (n + 1) u

variable {g : Digraph} {s t : Search} {a : Nat}

/-- A search goes on as long as something is on its stack. -/
theorem exists_step (hs : s.stack ≠ []) : ∃ t, Step g s t := by
  obtain ⟨stack, seen⟩ := s
  cases stack with
  | nil => exact absurd rfl hs
  | cons a stack =>
    by_cases ha : a ∈ seen
    · exact ⟨_, .again ha⟩
    · exact ⟨_, .first ha (.refl _)⟩

section Sound

/-- What is known of a search for all that can be reached from `a`. -/
structure Sound (g : Digraph) (a : Nat) (s : Search) : Prop where
  stack_reached : ∀ b ∈ s.stack, TransGen g.Adj a b
  seen_reached : ∀ b ∈ s.seen, TransGen g.Adj a b
  starts : ∀ b, g.Adj a b → b ∈ s.seen ∨ b ∈ s.stack
  closed : ∀ b ∈ s.seen, ∀ c, g.Adj b c → c ∈ s.seen ∨ c ∈ s.stack

theorem sound_start {order : List Nat} (horder : order.Perm (g.succs a).toList) :
    Sound g a ⟨order, ∅⟩ := by
  have hmem : ∀ b, b ∈ order ↔ g.Adj a b := fun b => by
    rw [horder.mem_iff, OrdSet.mem_toList, Digraph.mem_succs]
  refine ⟨fun b hb => .single ((hmem b).mp hb), ?_, fun b hb => Or.inr ((hmem b).mpr hb), ?_⟩
  · exact fun b hb => absurd hb OrdSet.not_mem_empty
  · exact fun b hb => absurd hb OrdSet.not_mem_empty

theorem Sound.step (h : Sound g a s) (hstep : Step g s t) : Sound g a t := by
  cases hstep with
  | @again b stack seen hb =>
    have hrest : ∀ c, c ∈ seen ∨ c ∈ b :: stack → c ∈ seen ∨ c ∈ stack := by
      rintro c (hc | hc)
      · exact Or.inl hc
      · rcases List.mem_cons.mp hc with rfl | hc
        · exact Or.inl hb
        · exact Or.inr hc
    exact ⟨fun c hc => h.stack_reached c (List.mem_cons_of_mem b hc), h.seen_reached,
      fun c hc => hrest c (h.starts c hc), fun c hc d hd => hrest d (h.closed c hc d hd)⟩
  | @first b stack order seen hb horder =>
    have hreached := h.stack_reached b List.mem_cons_self
    have hmem : ∀ c, c ∈ order ↔ g.Adj b c := fun c => by
      rw [horder.mem_iff, OrdSet.mem_toList, Digraph.mem_succs]
    have hrest : ∀ c, c ∈ seen ∨ c ∈ b :: stack → c ∈ seen.insert b ∨ c ∈ order ++ stack := by
      rintro c (hc | hc)
      · exact Or.inl (OrdSet.mem_insert.mpr (Or.inr hc))
      · rcases List.mem_cons.mp hc with rfl | hc
        · exact Or.inl (OrdSet.mem_insert.mpr (Or.inl rfl))
        · exact Or.inr (List.mem_append_right _ hc)
    refine ⟨fun c hc => ?_, fun c hc => ?_, fun c hc => hrest c (h.starts c hc),
      fun c hc d hd => ?_⟩
    · rcases List.mem_append.mp hc with hc | hc
      · exact hreached.tail ((hmem c).mp hc)
      · exact h.stack_reached c (List.mem_cons_of_mem b hc)
    · rcases OrdSet.mem_insert.mp hc with rfl | hc
      · exact hreached
      · exact h.seen_reached c hc
    · rcases OrdSet.mem_insert.mp hc with rfl | hc
      · exact Or.inr (List.mem_append_left _ ((hmem d).mpr hd))
      · exact hrest d (h.closed c hc d hd)

theorem Sound.runs {n : Nat} (h : Sound g a s) (hruns : Runs g s n t) : Sound g a t := by
  induction hruns with
  | stop => exact h
  | more hstep _ ih => exact ih (h.step hstep)

/-- With nothing left to look at, what is seen is what can be reached. -/
theorem Sound.seen_eq (h : Sound g a s) (hs : s.stack = []) : s.seen = g.reachableFrom a := by
  have hin : ∀ b, b ∈ s.seen ∨ b ∈ s.stack → b ∈ s.seen := by simp [hs]
  refine OrdSet.ext_mem fun b => ?_
  rw [Digraph.mem_reachableFrom]
  refine ⟨h.seen_reached b, fun hb => ?_⟩
  induction hb with
  | single hab => exact hin _ (h.starts _ hab)
  | tail _ hbc ih => exact hin _ (h.closed _ ih _ hbc)

end Sound

section Length

/-- The edges that leave vertices not seen yet. -/
def ahead (g : Digraph) (seen : OrdSet Nat) : List (Nat × Nat) :=
  g.edges.filter fun e => e.1 ∉ seen

/-- The most steps that a search can still take. -/
def left (g : Digraph) (s : Search) : Nat := s.stack.length + (ahead g s.seen).length

theorem length_order_le {order : List Nat} (horder : order.Perm (g.succs a).toList) :
    order.length ≤ (Digraph.targets g.edges a).length := by
  have hnodup : order.Nodup := horder.nodup_iff.mpr (OrdSet.ascending _).nodup
  refine (hnodup.subperm fun b hb => ?_).length_le
  rw [horder.mem_iff, OrdSet.mem_toList, Digraph.mem_succs] at hb
  exact Digraph.mem_targets.mpr hb

/-- The edges of a vertex are done with once it is seen. -/
theorem length_ahead_insert {seen : OrdSet Nat} (ha : a ∉ seen) :
    (Digraph.targets g.edges a).length + (ahead g (seen.insert a)).length
      = (ahead g seen).length := by
  have htargets : Digraph.targets (ahead g seen) a = Digraph.targets g.edges a := by
    rw [Digraph.targets, ahead, List.filter_filter, Digraph.targets]
    refine congrArg _ (List.filter_congr fun e _ => ?_)
    by_cases he : e.1 = a <;> simp [he, ha]
  have helsewhere : Digraph.startingElsewhere (ahead g seen) a = ahead g (seen.insert a) := by
    rw [Digraph.startingElsewhere, ahead, List.filter_filter, ahead]
    refine List.filter_congr fun e _ => ?_
    simp [not_or]
  rw [← Digraph.length_targets_add a (ahead g seen), htargets, helsewhere]

theorem Step.left_lt (h : Step g s t) : t.left g < s.left g := by
  cases h with
  | again => simp [left]
  | @first a stack order seen ha horder =>
    have hle := length_order_le horder
    have hahead := length_ahead_insert (g := g) ha
    simp only [left, List.length_append, List.length_cons]
    omega

theorem Runs.length_le {n : Nat} (h : Runs g s n t) : n ≤ s.left g := by
  induction h with
  | stop => exact Nat.zero_le _
  | more hstep _ ih =>
    have hlt := hstep.left_lt
    omega

/-- Every search comes to an end. -/
theorem exists_runs (g : Digraph) (s : Search) : ∃ n t, Runs g s n t ∧ t.stack = [] := by
  by_cases hs : s.stack = []
  · exact ⟨0, s, .stop, hs⟩
  · obtain ⟨t, hstep⟩ := exists_step (g := g) hs
    obtain ⟨n, u, hruns, hu⟩ := exists_runs g t
    exact ⟨n + 1, u, .more hstep hruns, hu⟩
termination_by s.left g
decreasing_by exact hstep.left_lt

end Length

end Search

section Paths

theorem transGen_iff_exists_path {r : Nat → Nat → Prop} {a b : Nat} :
    TransGen r a b ↔ ∃ mids, List.IsChain r (a :: (mids ++ [b])) := by
  constructor
  · intro h
    induction h using TransGen.head_induction_on with
    | single hab => exact ⟨[], by simpa using hab⟩
    | @head a c hac _ ih =>
      obtain ⟨mids, hmids⟩ := ih
      exact ⟨c :: mids, List.isChain_cons_cons.mpr ⟨hac, hmids⟩⟩
  · rintro ⟨mids, hmids⟩
    induction mids generalizing a with
    | nil => exact .single (by simpa using hmids)
    | cons c mids ih =>
      obtain ⟨hac, hmids⟩ := List.isChain_cons_cons.mp hmids
      exact .head hac (ih hmids)

/-- The edges of a graph under construction, or of a finished one, lead to its blocks. -/
theorem Builder.Inv.exists_block {events : List Event} {b : Builder} (h : b.Inv events)
    {g : BlockGraph} (hg : b.graph = g ∨ b.finish = .ok g) {x y : Nat} (hxy : g.flow.Adj x y) :
    ∃ c ∈ g.blocks, c.id = y := by
  rcases hg with rfl | hg
  · obtain ⟨-, -, c, hc, -, hcy, -⟩ := (h.wired.adj_iff x y).mp hxy
    exact ⟨c, hc, hcy⟩
  · unfold Builder.finish at hg
    split_ifs at hg
    obtain rfl := Except.ok.inj hg
    obtain ⟨-, -, c, hc, -, hcy, -⟩ := (h.adj_purge_iff x y).mp hxy
    exact ⟨c, hc, hcy⟩

end Paths

/-- In the graph of a builder after any session, or in the one that it finishes, what is reachable
from a block are the blocks at the end of a path of one or more edges, and a search with a worklist
finds them, in whatever order it takes up the successors of a block. -/
theorem reachable_exact (head : Head) (calls : List BuilderCall) (g : BlockGraph)
    (hg : ((Builder.start head).session calls).1.graph = g
      ∨ ((Builder.start head).session calls).1.finish = .ok g) :
    ∀ b ∈ g.blocks,
      (∀ y, y ∈ g.reachableFrom b.id ↔ (∃ c ∈ g.blocks, c.id = y)
        ∧ ∃ mids, List.IsChain (fun i j => j ∈ g.succs i) (b.id :: (mids ++ [y])))
      ∧ ∀ order, order.Perm (g.succs b.id).toList →
        (∃ n s, Search.Runs g.flow ⟨order, ∅⟩ n s ∧ s.stack = [])
        ∧ ∀ n s, Search.Runs g.flow ⟨order, ∅⟩ n s →
          n ≤ order.length + g.flow.edges.length
            ∧ (s.stack ≠ [] → ∃ t, Search.Step g.flow s t)
            ∧ (s.stack = [] → s.seen = g.reachableFrom b.id) := by
  intro b _
  refine ⟨fun y => ?_, fun order horder => ⟨Search.exists_runs .., fun n s hruns => ?_⟩⟩
  · have hsuccs : (fun i j => j ∈ g.succs i) = g.flow.Adj := by
      funext i j
      exact propext Digraph.mem_succs
    rw [hsuccs, ← transGen_iff_exists_path, BlockGraph.reachableFrom, Digraph.mem_reachableFrom]
    refine ⟨fun hby => ⟨?_, hby⟩, fun h => h.2⟩
    obtain ⟨c, -, hcy⟩ := TransGen.tail'_iff.mp hby
    exact (Builder.inv_session head calls).exists_block hg hcy
  · have hle := hruns.length_le
    have hahead : (Search.ahead g.flow ∅).length ≤ g.flow.edges.length := List.length_filter_le ..
    simp only [Search.left] at hle
    exact ⟨by omega, Search.exists_step, ((Search.sound_start horder).runs hruns).seen_eq⟩

/-- A block that jumps back to itself, left through another. -/
def selfLoop : List BuilderCall :=
  [.label "A", .jump (.zero .ne) "A", .instruction (.other "return" [])]

/-- The block lies on a cycle, so it is reachable from itself, and every search finds it. -/
theorem reachable_exact_selfLoop : ∃ g, ((Builder.start .blank).session selfLoop).1.finish = .ok g
    ∧ ∃ b ∈ g.blocks, b.id ∈ g.reachableFrom b.id
      ∧ ∃ n s, Search.Runs g.flow ⟨(g.succs b.id).toList, ∅⟩ n s ∧ s.stack = []
        ∧ s.seen = g.reachableFrom b.id := by
  have hg : ((Builder.start .blank).session selfLoop).1.finish = .ok _ := rfl
  obtain ⟨hreach, hsearch⟩ := reachable_exact .blank selfLoop _ (Or.inr hg) _ List.mem_cons_self
  obtain ⟨⟨n, s, hruns, hdone⟩, hall⟩ := hsearch _ (.refl _)
  refine ⟨_, hg, _, List.mem_cons_self, (hreach _).mpr ⟨⟨_, List.mem_cons_self, rfl⟩, [], ?_⟩, n, s,
    hruns, hdone, (hall n s hruns).2.2 hdone⟩
  decide

end SlotColoring
