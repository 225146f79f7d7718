import Mathlib.Logic.Function.Iterate
import SlotColoring.Proofs.BuilderSession
import SlotColoring.Proofs.Paths

/-!
# Taking out the removable blocks

The removable blocks of a graph are taken out one after the other, and each time what led to the
block is joined to what followed it.  In the end an edge stands for a path that passed through
removed blocks only (`BlockGraph.adj_purge`), so the blocks that stay reach one another as before
(`BlockGraph.mem_reachableFrom_purge`).  A builder opens its first block for a label or for an
instruction, so that block is never removable (`Builder.rooted_session`) and stays the first.
-/

namespace SlotColoring

section Removable

variable {x : Block}

theorem isRemovable_iff : x.isRemovable = true ↔ x.label = none ∧ x.body = [] := by
  simp [Block.isRemovable]

theorem not_isRemovable (hx : x.body ≠ []) : x.isRemovable = false := by
  rw [← Bool.not_eq_true, isRemovable_iff]
  exact fun h => hx h.2

theorem Block.isRemovable_extend (x : Block) (n : Nat) (op : Opcode) :
    (x.extend n op).isRemovable = false :=
  not_isRemovable (by simp [extend])

theorem bodies_filter : ∀ cs : List Block,
    bodies (cs.filter fun y => !y.isRemovable) = bodies cs
  | [] => rfl
  | y :: cs => by
    have ih := bodies_filter cs
    by_cases hy : y.isRemovable = true
    · simpa [bodies, hy, (isRemovable_iff.mp hy).2] using ih
    · simpa [bodies, hy] using ih

end Removable

namespace BlockGraph

variable {g : BlockGraph} {x : Block} {m n : Nat}

/-- The id is that of a removable block. -/
def Removed (g : BlockGraph) (id : Nat) : Prop :=
  ∃ z ∈ g.blocks, z.isRemovable = true ∧ z.id = id

theorem mem_removed_iff :
    m ∈ (g.blocks.filter Block.isRemovable).map Block.id ↔ g.Removed m := by
  simp [Removed, and_assoc]

theorem mem_purge_blocks : x ∈ g.purge.blocks ↔ x ∈ g.blocks ∧ x.isRemovable = false := by
  simp [purge]

section Paths

theorem via_purge_iff {S : Nat → Prop} : g.purge.flow.Via S m n ↔
    ¬ g.Removed m ∧ ¬ g.Removed n ∧ g.flow.Via (fun k => g.Removed k ∨ S k) m n := by
  have hvia := Digraph.via_foldl_contract (S := S) (a := m) (b := n)
    ((g.blocks.filter Block.isRemovable).map Block.id) (g := g.flow)
  simp only [mem_removed_iff] at hvia
  exact hvia

theorem adj_purge : g.purge.flow.Adj m n ↔
    ¬ g.Removed m ∧ ¬ g.Removed n ∧ g.flow.Via g.Removed m n := by
  rw [← Digraph.via_false, via_purge_iff]
  simp only [or_false]

theorem mem_reachableFrom_purge : n ∈ g.purge.reachableFrom m ↔
    ¬ g.Removed m ∧ ¬ g.Removed n ∧ n ∈ g.reachableFrom m := by
  rw [reachableFrom, reachableFrom, Digraph.mem_reachableFrom, Digraph.mem_reachableFrom,
    ← Digraph.via_true, ← Digraph.via_true, via_purge_iff]
  simp only [or_true]

end Paths

section Blocks

theorem block?_eq_some (hids : (g.blocks.map Block.id).Nodup) (hx : x ∈ g.blocks) :
    g.block? x.id = some x := by
  unfold block?
  rcases hfind : g.blocks.find? (fun b => b.id == x.id) with _ | y
  · simpa using List.find?_eq_none.mp hfind x hx
  · have hid : y.id = x.id := by simpa using List.find?_some hfind
    rw [hfind, List.inj_on_of_nodup_map hids (List.mem_of_find?_eq_some hfind) hx hid]

theorem nodup_ids_purge (hids : (g.blocks.map Block.id).Nodup) :
    (g.purge.blocks.map Block.id).Nodup :=
  hids.sublist (List.filter_sublist.map _)

theorem Removed.isRemovable (hids : (g.blocks.map Block.id).Nodup) (hx : x ∈ g.blocks)
    (h : g.Removed x.id) : x.isRemovable = true := by
  obtain ⟨z, hz, hremovable, hid⟩ := h
  rwa [← List.inj_on_of_nodup_map hids hz hx hid]

theorem not_removed (hids : (g.blocks.map Block.id).Nodup) (hx : x ∈ g.purge.blocks) :
    ¬ g.Removed x.id := by
  obtain ⟨hmem, hkept⟩ := mem_purge_blocks.mp hx
  intro hremoved
  rw [hremoved.isRemovable hids hmem] at hkept
  exact absurd hkept (by simp)

/-- Nothing is left that could be taken out. -/
theorem purge_purge (g : BlockGraph) : g.purge.purge = g.purge := by
  have hkept : g.purge.blocks.filter Block.isRemovable = [] := by
    rw [List.filter_eq_nil_iff]
    intro x hx
    rw [(mem_purge_blocks.mp hx).2]
    simp
  have hall : g.purge.blocks.filter (fun x => !x.isRemovable) = g.purge.blocks := by
    rw [List.filter_eq_self]
    intro x hx
    rw [(mem_purge_blocks.mp hx).2]
    rfl
  generalize g.purge = g' at hkept hall
  rw [purge, hkept, hall]
  rfl

end Blocks

end BlockGraph

section Root

variable {bs before : List Block} {cur : Block}

/-- The first block stays when the removable blocks are taken out. -/
def Rooted (bs : List Block) : Prop := ∀ x, bs.head? = some x → x.isRemovable = false

theorem Rooted.grow (h : Rooted bs) {label : Option Label} (hfirst : bs = [] → label ≠ none)
    (n : Nat) : Rooted (bs ++ [⟨n, label, []⟩]) := by
  intro x hx
  rcases bs with _ | ⟨y, bs⟩
  · obtain rfl := Option.some.inj hx
    simpa [Block.isRemovable, Option.isSome_iff_ne_none] using hfirst rfl
  · exact h x hx

theorem Rooted.extend (h : Rooted (before ++ [cur])) (n : Nat) (op : Opcode) :
    Rooted (before ++ [cur.extend n op]) := by
  intro x hx
  rcases before with _ | ⟨y, before⟩
  · obtain rfl := Option.some.inj hx
    exact Block.isRemovable_extend cur n op
  · exact h x hx

theorem Rooted.head?_filter (h : Rooted bs) :
    (bs.filter fun x => !x.isRemovable).head? = bs.head? := by
  rcases bs with _ | ⟨y, bs⟩
  · rfl
  · rw [List.filter_cons_of_pos (by simp [h y rfl])]
    rfl

namespace Builder

variable {b b' : Builder} {e : Event} {l : Label}

theorem blocks_addJump (b : Builder) (c : Condition) (l : Label) :
    (b.addJump c l).graph.blocks = (b.push (.jump c l)).graph.blocks
      ++ [⟨(b.push (.jump c l)).graph.blocks.length, none, []⟩] := by
  unfold addJump
  rw [blocks_openBlock]
  split <;> rfl

theorem blocks_addLabel (h : b.addLabel l = .ok b') :
    b'.graph.blocks = b.graph.blocks ++ [⟨b.graph.blocks.length, some l, []⟩] := by
  unfold addLabel at h
  split_ifs at h
  obtain rfl := Except.ok.inj h
  exact b.blocks_openBlock (some l)

/-- An instruction goes to the end of the newest block, or into a first block that is opened
for it. -/
theorem blocks_push (b : Builder) (op : Opcode) : ∃ before cur,
    (b.push op).graph.blocks = before ++ [cur.extend b.instCount op]
      ∧ (b.graph.blocks = before ++ [cur] ∨ before = []) := by
  rcases hb : b.blocks with _ | ⟨cur, older⟩
  · exact ⟨[], ⟨0, none, []⟩, by simp [push, hb, graph, openBlock, nextBlock, Block.extend],
      Or.inr rfl⟩
  · exact ⟨older.reverse, cur, by simp [push, hb, graph, Block.extend],
      Or.inl (by simp [graph, hb])⟩

theorem rooted_push (h : Rooted b.graph.blocks) (op : Opcode) :
    Rooted (b.push op).graph.blocks := by
  obtain ⟨before, cur, hblocks, hbefore | rfl⟩ := b.blocks_push op
  · rw [hblocks]
    rw [hbefore] at h
    exact h.extend _ op
  · rw [hblocks]
    intro x hx
    obtain rfl := Option.some.inj hx
    exact Block.isRemovable_extend cur _ op

theorem rooted_addJump (h : Rooted b.graph.blocks) (c : Condition) (l : Label) :
    Rooted (b.addJump c l).graph.blocks := by
  rw [blocks_addJump]
  refine (rooted_push h _).grow (fun hnil => ?_) _
  obtain ⟨before, cur, hblocks, -⟩ := b.blocks_push (.jump c l)
  simp [hblocks] at hnil

theorem rooted_feed (h : Rooted b.graph.blocks) (hb : b.feed e = .ok b') :
    Rooted b'.graph.blocks := by
  cases e with
  | label l =>
    rw [blocks_addLabel hb]
    exact h.grow (by simp) _
  | jump c l =>
    obtain rfl := Except.ok.inj hb
    exact rooted_addJump h c l
  | emit op =>
    obtain rfl := Except.ok.inj hb
    cases op with
    | jump c l => exact rooted_addJump h c l
    | load s => exact rooted_push h _
    | store s => exact rooted_push h _
    | other m operands => exact rooted_push h _

theorem rooted_session (head : Head) (cs : List BuilderCall) :
    Rooted ((start head).session cs).1.graph.blocks := by
  induction cs using List.reverseRecOn with
  | nil => simp [session, start, graph, Rooted]
  | append_singleton cs c ih =>
    rw [session_snoc]
    rcases ((start head).session cs).1.call_cases c with ⟨hfeed, -⟩ | ⟨l, -, -, hcall⟩
    · exact rooted_feed ih hfeed
    · rw [hcall]
      exact ih

end Builder

end Root

/-- The graph `g'` is what is left of `g` without its removable blocks. -/
structure PurgedFrom (g g' : BlockGraph) : Prop where
  order : g'.blocks = g.blocks.filter fun x => !x.isRemovable
  entry : g'.blocks.head? = g.blocks.head?
  /-- Under the id of a block that stays there is the same block, with its label and body. -/
  kept : ∀ x ∈ g'.blocks, g.block? x.id = some x ∧ g'.block? x.id = some x
  instructions : g'.instructions = g.instructions
  succs_iff : ∀ x ∈ g'.blocks, ∀ y ∈ g'.blocks,
    y.id ∈ g'.succs x.id ↔ g.flow.Via g.Removed x.id y.id
  reachable_iff : ∀ x ∈ g'.blocks, ∀ y ∈ g'.blocks,
    y.id ∈ g'.reachableFrom x.id ↔ y.id ∈ g.reachableFrom x.id
  /-- No edge is left at a block that is gone. -/
  clear : ∀ m n, n ∈ g'.succs m → ¬ g.Removed m ∧ ¬ g.Removed n
  converse : ∀ m n, n ∈ g'.succs m ↔ m ∈ g'.preds n
  again : ∀ k, BlockGraph.purge^[k] g' = g'

/-- Purging the graph that a builder has made, after any session on it, contracts the paths through
removable blocks and changes nothing else. -/
theorem purge_contracts (head : Head) (calls : List BuilderCall) :
    PurgedFrom ((Builder.start head).session calls).1.graph
      ((Builder.start head).session calls).1.graph.purge := by
  have hids := (Builder.inv_session head calls).nodup_ids
  have hroot := Builder.rooted_session head calls
  generalize ((Builder.start head).session calls).1.graph = g at hids hroot
  refine ⟨rfl, hroot.head?_filter, fun x hx => ⟨?_, ?_⟩, bodies_filter g.blocks,
    fun x hx y hy => ?_, fun x hx y hy => ?_, fun m n hmn => ?_, fun m n => ?_, fun k => ?_⟩
  · exact BlockGraph.block?_eq_some hids (BlockGraph.mem_purge_blocks.mp hx).1
  · exact BlockGraph.block?_eq_some (BlockGraph.nodup_ids_purge hids) hx
  · rw [BlockGraph.succs, Digraph.mem_succs, BlockGraph.adj_purge]
    simp only [BlockGraph.not_removed hids hx, BlockGraph.not_removed hids hy, not_false_eq_true,
      true_and]
  · rw [BlockGraph.mem_reachableFrom_purge]
    simp only [BlockGraph.not_removed hids hx, BlockGraph.not_removed hids hy, not_false_eq_true,
      true_and]
  · rw [BlockGraph.succs, Digraph.mem_succs, BlockGraph.adj_purge] at hmn
    exact ⟨hmn.1, hmn.2.1⟩
  · rw [BlockGraph.succs, BlockGraph.preds, Digraph.mem_succs, Digraph.mem_preds]
  · exact Function.iterate_fixed g.purge_purge k

-- The block between the jump and the label is empty, and the jump falls through it to the label.
example :
    let g := ((Builder.start .blank).session [.jump (.zero .eq) "A", .label "B"]).1.graph
    g.blocks.map Block.isRemovable = [false, true, false]
      ∧ g.flow.edges = [(1, 2), (0, 1)] ∧ g.purge.flow.edges = [(0, 2)] := by
  decide

end SlotColoring
