import SlotColoring.FlowGraph.Basic
import SlotColoring.Proofs.Purging

/-!
# The flow graph of a stream of events

The events alone say where control may pass: from an instruction to the next one unless it is
`goto`, and from a jump to the instruction before which its label is placed (`Follows`).  The flow
graph of the graph that is built from them has a node for each instruction and exactly these edges
(`flowGraph_exact`).

A block that is led to is entered at the instruction that it starts at.  If it has no instructions
control passes on to the next block, which starts at the same instruction; so it does not matter
which empty blocks were purged, nor through how many labels an edge looks (`mem_nodesAfter`).
-/

namespace SlotColoring

/-- By the events, control may pass from the `i`-th instruction to the `j`-th. -/
def Follows (events : List Event) (i j : Nat) : Prop :=
  ∃ op, (emitted events)[i]? = some op ∧ j < (emitted events).length
    ∧ ((j = i + 1 ∧ op.isGoto = false) ∨ ∃ l, op.target? = some l ∧ PlacedAt events l j)

/-- The id is that of a block without instructions. -/
def Hollow (bs : List Block) (m : Nat) : Prop := ∃ z ∈ bs, z.body = [] ∧ z.id = m

/-- The number of instructions before the block at a place. -/
def offset (bs : List Block) (k : Nat) : Nat := (bodies (bs.take k)).length

section Offsets

variable {done : List Event} {bs : List Block} {x : Block} {n k : Nat}

namespace Layout

theorem getElem?_id (h : Layout done bs) (hx : x ∈ bs) : bs[x.id]? = some x := by
  obtain ⟨k, hk⟩ := List.mem_iff_getElem?.mp hx
  have hid : (bs.map Block.id)[k]? = some x.id := by rw [List.getElem?_map, hk, Option.map_some]
  have hlt : k < bs.length := (List.getElem?_eq_some_iff.mp hk).1
  rw [h.ids, List.getElem?_range hlt, Option.some.injEq] at hid
  rwa [← hid]

theorem exists_id (h : Layout done bs) (hk : k < bs.length) : ∃ y ∈ bs, y.id = k := by
  have hmem : k ∈ bs.map Block.id := by rwa [h.ids, List.mem_range]
  exact List.mem_map.mp hmem

theorem offset_succ (h : Layout done bs) (hx : x ∈ bs) :
    offset bs (x.id + 1) = offset bs x.id + x.body.length := by
  rw [offset, List.take_add_one, h.getElem?_id hx, Option.toList_some, bodies_append,
    bodies_singleton, List.length_append, offset]

theorem offset_add_le (h : Layout done bs) (hx : x ∈ bs) :
    offset bs x.id + x.body.length ≤ (bodies bs).length := by
  rw [← h.offset_succ hx, offset]
  nth_rewrite 2 [← List.take_append_drop (x.id + 1) bs]
  rw [bodies_append, List.length_append]
  exact Nat.le_add_right _ _

/-- An instruction is inside some block, so a block that instructions follow is not the last. -/
theorem exists_next (h : Layout done bs) (hlt : offset bs k < (bodies bs).length) :
    ∃ y ∈ bs, y.id = k := by
  refine h.exists_id (Nat.lt_of_not_le fun hle => ?_)
  rw [offset, List.take_of_length_le hle] at hlt
  exact absurd hlt (Nat.lt_irrefl _)

theorem startsAt_iff (h : Layout done bs) : StartsAt bs x n ↔ x ∈ bs ∧ offset bs x.id = n := by
  constructor
  · intro hx
    have hmem := hx.mem
    obtain ⟨before, after, rfl, rfl⟩ := hx
    have hid : x.id = before.length := by
      have hget := congrArg (·[before.length]?) h.ids
      simpa using hget
    refine ⟨hmem, ?_⟩
    rw [offset, hid, List.take_left]
  · rintro ⟨hx, rfl⟩
    obtain ⟨hlt, hget⟩ := List.getElem?_eq_some_iff.mp (h.getElem?_id hx)
    have hdrop := List.drop_eq_getElem_cons hlt
    rw [hget] at hdrop
    exact ⟨bs.take x.id, bs.drop (x.id + 1), by rw [← hdrop, List.take_append_drop], rfl⟩

end Layout

end Offsets

section Nodes

variable (g : BlockGraph) (hollow : List (Nat × Nat)) (after : OrdSet Nat)

namespace BlockGraph

theorem length_bodyNodes : ∀ (is : List Instruction) (n : Nat),
    (bodyNodes after is n).length = is.length
  | [], _ => rfl
  | [_], _ => rfl
  | _ :: j :: is, n => by
    rw [bodyNodes, List.length_cons, length_bodyNodes (j :: is), List.length_cons, List.length_cons,
      List.length_cons]

theorem getElem?_bodyNodes (q : List Instruction) (i : Instruction) :
    ∀ (p : List Instruction) (n : Nat), (bodyNodes after (p ++ i :: q) n)[p.length]?
      = some ⟨i.id, i.opcode.writes?, i.opcode.reads?,
          if q = [] then after else .singleton (n + p.length + 1)⟩
  | [], n => by
    cases q with
    | nil => rfl
    | cons j q => rfl
  | [k], n => by
    have ih := getElem?_bodyNodes q i [] (n + 1)
    simpa [bodyNodes] using ih
  | k :: k' :: p, n => by
    have ih := getElem?_bodyNodes q i (k' :: p) (n + 1)
    rw [List.cons_append, List.cons_append, bodyNodes, List.length_cons, List.getElem?_cons_succ]
    rw [List.cons_append] at ih
    rw [ih, Nat.add_right_comm n 1, Nat.add_assoc n _ 1]

theorem length_nodesFrom : ∀ (bs : List Block) (n : Nat),
    (nodesFrom g hollow bs n).length = (bodies bs).length
  | [], _ => rfl
  | x :: bs, n => by
    rw [nodesFrom, List.length_append, length_bodyNodes, length_nodesFrom bs]
    simp [bodies]

theorem size_flowGraph (g : BlockGraph) : g.flowGraph.size = (bodies g.blocks).length := by
  rw [FlowGraph.size, flowGraph, List.size_toArray, length_nodesFrom]

theorem nodesFrom_append (cs : List Block) : ∀ (bs : List Block) (n : Nat),
    nodesFrom g hollow (bs ++ cs) n
      = nodesFrom g hollow bs n ++ nodesFrom g hollow cs (n + (bodies bs).length)
  | [], n => by simp [nodesFrom, bodies]
  | x :: bs, n => by
    have hlen : (bodies (x :: bs)).length = x.body.length + (bodies bs).length := by simp [bodies]
    rw [List.cons_append, nodesFrom, nodesFrom_append cs bs, nodesFrom, List.append_assoc, hlen,
      Nat.add_assoc]

theorem getElem?_nodes {g : BlockGraph} {x : Block} {n : Nat} (hx : StartsAt g.blocks x n)
    {p q : List Instruction} {i : Instruction} (hbody : x.body = p ++ i :: q) :
    g.flowGraph.nodes[n + p.length]? = some ⟨i.id, i.opcode.writes?, i.opcode.reads?,
      if q = [] then g.nodesAfter g.hollowEdges x else .singleton (n + p.length + 1)⟩ := by
  obtain ⟨before, rest, hblocks, rfl⟩ := hx
  have hlen := length_nodesFrom g g.hollowEdges before 0
  have hlt : p.length < (bodyNodes (g.nodesAfter g.hollowEdges x) x.body
      (0 + (bodies before).length)).length := by
    rw [length_bodyNodes, hbody]
    simp
  have hnode := getElem?_bodyNodes (g.nodesAfter g.hollowEdges x) q i p
    (0 + (bodies before).length)
  rw [flowGraph, List.getElem?_toArray, hblocks, nodesFrom_append, ← hlen,
    List.getElem?_append_right (Nat.le_add_right _ _), Nat.add_sub_cancel_left, nodesFrom,
    List.getElem?_append_left (hlen ▸ hlt), hlen, hbody, hnode, Nat.zero_add]

end BlockGraph

end Nodes

section Purge

variable {done : List Event} {bs : List Block} {x : Block} {n : Nat}

theorem bodies_eq_nil {cs : List Block} (h : ∀ y ∈ cs, y.isRemovable = true) : bodies cs = [] := by
  rw [bodies, List.flatMap_eq_nil_iff]
  exact fun y hy => (isRemovable_iff.mp (h y hy)).2

theorem startsAt_filter : StartsAt (bs.filter fun y => !y.isRemovable) x n ↔
    StartsAt bs x n ∧ x.isRemovable = false := by
  constructor
  · rintro ⟨before, after, hfilter, rfl⟩
    obtain ⟨cs, ds, rfl, rfl, hds⟩ := List.filter_eq_append_iff.mp hfilter
    obtain ⟨es, fs, rfl, hes, hx, -⟩ := List.filter_eq_cons_iff.mp hds
    refine ⟨⟨cs ++ es, fs, by simp, ?_⟩, by simpa using hx⟩
    have hnil : bodies es = [] := bodies_eq_nil fun y hy => by simpa using hes y hy
    rw [bodies_append, hnil, List.append_nil, bodies_filter]
  · rintro ⟨⟨before, after, rfl, rfl⟩, hx⟩
    refine ⟨before.filter fun y => !y.isRemovable, after.filter fun y => !y.isRemovable, ?_, ?_⟩
    · rw [List.filter_append, List.filter_cons_of_pos (by simpa using hx)]
    · rw [bodies_filter]

theorem startsAt_cons {y : Block} : StartsAt (y :: bs) x n ↔
    (x = y ∧ n = 0) ∨ ∃ m, StartsAt bs x m ∧ n = y.body.length + m := by
  constructor
  · rintro ⟨before, after, h, rfl⟩
    cases before with
    | nil =>
      obtain ⟨rfl, -⟩ := List.cons.inj h
      exact Or.inl ⟨rfl, rfl⟩
    | cons z before =>
      obtain ⟨rfl, rfl⟩ := List.cons.inj h
      exact Or.inr ⟨_, ⟨before, after, rfl, rfl⟩, by simp [bodies]⟩
  · rintro (⟨rfl, rfl⟩ | ⟨m, ⟨before, after, rfl, rfl⟩, rfl⟩)
    · exact ⟨[], bs, rfl, rfl⟩
    · exact ⟨y :: before, after, rfl, by simp [bodies]⟩

theorem exists_startsAt : ∀ (bs : List Block) (i : Nat), i < (bodies bs).length →
    ∃ x n p ins q, StartsAt bs x n ∧ x.body = p ++ ins :: q ∧ i = n + p.length
  | [], _, hi => absurd hi (Nat.not_lt_zero _)
  | y :: bs, i, hi => by
    have hlen : (bodies (y :: bs)).length = y.body.length + (bodies bs).length := by simp [bodies]
    by_cases hlt : i < y.body.length
    · refine ⟨y, 0, y.body.take i, y.body[i], y.body.drop (i + 1),
        startsAt_cons.mpr (Or.inl ⟨rfl, rfl⟩), ?_, ?_⟩
      · rw [← List.drop_eq_getElem_cons hlt, List.take_append_drop]
      · rw [List.length_take]
        omega
    · obtain ⟨x, n, p, ins, q, hx, hbody, hn⟩ :=
        exists_startsAt bs (i - y.body.length) (by omega)
      exact ⟨x, _, p, ins, q, startsAt_cons.mpr (Or.inr ⟨n, hx, rfl⟩), hbody, by omega⟩

theorem StartsAt.getElem?_bodies {p q : List Instruction} {i : Instruction}
    (hx : StartsAt bs x n) (hbody : x.body = p ++ i :: q) :
    (bodies bs)[n + p.length]? = some i := by
  obtain ⟨before, after, rfl, rfl⟩ := hx
  have hcons : bodies (x :: after) = x.body ++ bodies after := rfl
  rw [bodies_append, List.getElem?_append_right (Nat.le_add_right _ _), Nat.add_sub_cancel_left,
    hcons, hbody, List.append_assoc, List.getElem?_append_right (Nat.le_refl _), Nat.sub_self]
  rfl

namespace BlockGraph

theorem firstNode?_eq_some {id j : Nat} : ∀ {bs : List Block} {k : Nat},
    (bs.map Block.id).Nodup → (firstNode? id bs k = some j ↔
      ∃ y n, StartsAt bs y n ∧ y.id = id ∧ y.body ≠ [] ∧ j = k + n)
  | [], k, _ => by simp [firstNode?, StartsAt]
  | b :: bs, k, h => by
    obtain ⟨hb, hbs⟩ := List.nodup_cons.mp h
    have ih : firstNode? id bs (k + b.body.length) = some j ↔ _ := firstNode?_eq_some hbs
    simp only [firstNode?]
    split_ifs with hid hempty
    · simp only [false_iff]
      rintro ⟨y, n, hy, hyid, hybody, -⟩
      rcases startsAt_cons.mp hy with ⟨rfl, -⟩ | ⟨m, hm, -⟩
      · exact hybody (List.isEmpty_iff.mp hempty)
      · exact hb (List.mem_map.mpr ⟨y, hm.mem, hyid.trans hid.symm⟩)
    · rw [Option.some.injEq]
      constructor
      · rintro rfl
        exact ⟨b, 0, startsAt_cons.mpr (Or.inl ⟨rfl, rfl⟩), hid, by simpa using hempty, rfl⟩
      · rintro ⟨y, n, hy, hyid, -, rfl⟩
        rcases startsAt_cons.mp hy with ⟨rfl, rfl⟩ | ⟨m, hm, -⟩
        · rfl
        · exact absurd (List.mem_map.mpr ⟨y, hm.mem, hyid.trans hid.symm⟩) hb
    · rw [ih]
      constructor
      · rintro ⟨y, n, hy, hyid, hybody, rfl⟩
        exact ⟨y, _, startsAt_cons.mpr (Or.inr ⟨n, hy, rfl⟩), hyid, hybody, Nat.add_assoc _ _ _⟩
      · rintro ⟨y, n, hy, hyid, hybody, rfl⟩
        rcases startsAt_cons.mp hy with ⟨rfl, -⟩ | ⟨m, hm, rfl⟩
        · exact absurd hyid hid
        · exact ⟨y, m, hm, hyid, hybody, (Nat.add_assoc _ _ _).symm⟩

/-- Control lands on the blocks that paths through empty blocks lead to. -/
theorem mem_landings {g : BlockGraph} {y : Nat} : y ∈ g.landings g.hollowEdges x ↔
    g.flow.Via (Hollow g.blocks) x.id y := by
  have hedges : (fun u v => (u, v) ∈ g.hollowEdges)
      = fun u v => g.flow.Adj u v ∧ Hollow g.blocks u := by
    funext u v
    simp [hollowEdges, Digraph.Adj, Hollow, and_assoc]
  rw [landings, Digraph.mem_closure, Digraph.via_iff_exists, hedges]
  simp [succs]

end BlockGraph

end Purge

section Edges

variable {events : List Event} {b : Builder} {x y : Block} {j : Nat}

theorem hollow_iff {g : BlockGraph} {m : Nat} :
    (g.Removed m ∨ Hollow g.purge.blocks m) ↔ Hollow g.blocks m := by
  constructor
  · rintro (⟨z, hz, hremovable, hid⟩ | ⟨z, hz, hbody, hid⟩)
    · exact ⟨z, hz, (isRemovable_iff.mp hremovable).2, hid⟩
    · exact ⟨z, (BlockGraph.mem_purge_blocks.mp hz).1, hbody, hid⟩
  · rintro ⟨z, hz, hbody, hid⟩
    rcases hremovable : z.isRemovable with _ | _
    · exact Or.inr ⟨z, BlockGraph.mem_purge_blocks.mpr ⟨hz, hremovable⟩, hbody, hid⟩
    · exact Or.inl ⟨z, hz, hremovable, hid⟩

namespace Builder.Inv

/-- Between blocks with instructions, purging keeps the paths through empty blocks. -/
theorem via_purge (h : b.Inv events) (hx : x ∈ b.graph.blocks) (hxbody : x.body ≠ [])
    (hy : y ∈ b.graph.blocks) (hybody : y.body ≠ []) :
    b.graph.purge.flow.Via (Hollow b.graph.purge.blocks) x.id y.id ↔
      b.flow.Via (Hollow b.graph.blocks) x.id y.id := by
  have hkept : ∀ {z : Block}, z ∈ b.graph.blocks → z.body ≠ [] → ¬ b.graph.Removed z.id := by
    intro z hz hbody
    exact BlockGraph.not_removed h.nodup_ids
      (BlockGraph.mem_purge_blocks.mpr ⟨hz, not_isRemovable hbody⟩)
  rw [BlockGraph.via_purge_iff]
  simp only [hollow_iff, hkept hx hxbody, hkept hy hybody, not_false_eq_true, true_and]
  rfl

/-- An empty block leads to the next one only, which starts at the same instruction. -/
theorem offset_of_hollow (h : b.Inv events) (hx : x ∈ b.graph.blocks) (hbody : x.body = [])
    (hxy : x.Leads y) : offset b.graph.blocks y.id = offset b.graph.blocks x.id := by
  rcases hxy with ⟨hid, -⟩ | ⟨l, hl, -⟩
  · rw [hid, h.layout.offset_succ hx, hbody, List.length_nil, Nat.add_zero]
  · rw [Block.target?_of_body_eq_nil hbody] at hl
    exact absurd hl (by simp)

theorem offset_of_via (h : b.Inv events) {m : Nat}
    (hv : b.flow.Via (Hollow b.graph.blocks) m y.id) :
    ∃ a ∈ b.graph.blocks, ∃ c ∈ b.graph.blocks, a.id = m ∧ a.Leads c
      ∧ offset b.graph.blocks c.id = offset b.graph.blocks y.id := by
  -- from the far end: an inner block is empty, so it starts where the block after it does
  generalize hn : y.id = n at hv
  induction hv with
  | edge hmn =>
    subst hn
    obtain ⟨a, ha, c, hc, ham, hcn, hac⟩ := (h.wired.adj_iff _ _).mp hmn
    exact ⟨a, ha, c, hc, ham, hac, by rw [hcn]⟩
  | step hmn hhollow _ ih =>
    obtain ⟨a', ha', c', hc', ham', hac', hoffset⟩ := ih hn
    obtain ⟨a, ha, c, hc, ham, hcm, hac⟩ := (h.wired.adj_iff _ _).mp hmn
    obtain ⟨z, hz, hzbody, hzid⟩ := hhollow
    obtain rfl : z = a' := h.layout.eq_of_id_eq hz ha' (hzid.trans ham'.symm)
    refine ⟨a, ha, c, hc, ham, hac, ?_⟩
    rw [hcm, ← hzid, ← h.offset_of_hollow hz hzbody hac', hoffset]

/-- From a block that instructions follow, empty blocks lead to one that has the first of them. -/
theorem exists_landing (h : b.Inv events) {c : Block} (hc : c ∈ b.graph.blocks)
    (hlt : offset b.graph.blocks c.id < (bodies b.graph.blocks).length) :
    ∃ y ∈ b.graph.blocks, y.body ≠ [] ∧ offset b.graph.blocks y.id = offset b.graph.blocks c.id
      ∧ (c = y ∨ (c.body = [] ∧ b.flow.Via (Hollow b.graph.blocks) c.id y.id)) := by
  by_cases hbody : c.body = []
  · have hsucc : offset b.graph.blocks (c.id + 1) = offset b.graph.blocks c.id := by
      rw [h.layout.offset_succ hc, hbody, List.length_nil, Nat.add_zero]
    obtain ⟨d, hd, hid⟩ := h.layout.exists_next (hsucc ▸ hlt)
    have hcd : b.flow.Adj c.id d.id := by
      refine (h.wired.adj_iff _ _).mpr ⟨c, hc, d, hd, rfl, rfl, Or.inl ⟨hid, ?_⟩⟩
      exact Block.endsInGoto_of_body_eq_nil hbody
    -- the ids grow along the empty blocks, so they come to an end
    have hdlen := h.layout.id_lt hd
    obtain ⟨y, hy, hybody, hoffset, hlands⟩ := h.exists_landing hd (by rwa [hid, hsucc])
    refine ⟨y, hy, hybody, by rw [hoffset, hid, hsucc], Or.inr ⟨hbody, ?_⟩⟩
    rcases hlands with rfl | ⟨hdbody, hv⟩
    · exact .edge hcd
    · exact .step hcd ⟨d, hd, hdbody, rfl⟩ hv
  · exact ⟨c, hc, hbody, rfl, Or.inl rfl⟩
termination_by b.graph.blocks.length - c.id
decreasing_by omega

/-- The nodes after a block are the instructions at which the blocks start that it leads to. -/
theorem mem_nodesAfter (h : b.Inv events) (hx : x ∈ b.graph.blocks) (hbody : x.body ≠ []) :
    j ∈ b.graph.purge.nodesAfter b.graph.purge.hollowEdges x ↔
      j < (bodies b.graph.blocks).length
        ∧ ∃ c ∈ b.graph.blocks, x.Leads c ∧ offset b.graph.blocks c.id = j := by
  have hnodup := BlockGraph.nodup_ids_purge h.nodup_ids
  have hmem : j ∈ b.graph.purge.nodesAfter b.graph.purge.hollowEdges x ↔
      ∃ y ∈ b.graph.blocks, y.body ≠ [] ∧ offset b.graph.blocks y.id = j
        ∧ b.flow.Via (Hollow b.graph.blocks) x.id y.id := by
    rw [BlockGraph.nodesAfter, OrdSet.mem_ofList, List.mem_filterMap]
    constructor
    · rintro ⟨id, hid, hfirst⟩
      obtain ⟨y, n, hstarts, rfl, hybody, rfl⟩ := (BlockGraph.firstNode?_eq_some hnodup).mp hfirst
      obtain ⟨hy, rfl⟩ := h.layout.startsAt_iff.mp (startsAt_filter.mp hstarts).1
      refine ⟨y, hy, hybody, (Nat.zero_add _).symm, ?_⟩
      exact (h.via_purge hx hbody hy hybody).mp (BlockGraph.mem_landings.mp hid)
    · rintro ⟨y, hy, hybody, rfl, hv⟩
      refine ⟨y.id, BlockGraph.mem_landings.mpr ((h.via_purge hx hbody hy hybody).mpr hv), ?_⟩
      refine (BlockGraph.firstNode?_eq_some hnodup).mpr
        ⟨y, _, startsAt_filter.mpr ⟨?_, not_isRemovable hybody⟩, rfl, hybody, (Nat.zero_add _).symm⟩
      exact h.layout.startsAt_iff.mpr ⟨hy, rfl⟩
  rw [hmem]
  constructor
  · rintro ⟨y, hy, hybody, rfl, hv⟩
    obtain ⟨a, ha, c, hc, hid, hac, hoffset⟩ := h.offset_of_via hv
    rw [h.layout.eq_of_id_eq ha hx hid] at hac
    have hle := h.layout.offset_add_le hy
    have hpos := List.length_pos_of_ne_nil hybody
    exact ⟨by omega, c, hc, hac, hoffset⟩
  · rintro ⟨hlt, c, hc, hxc, rfl⟩
    have hadj : b.flow.Adj x.id c.id :=
      (h.wired.adj_iff _ _).mpr ⟨x, hx, c, hc, rfl, rfl, hxc⟩
    obtain ⟨y, hy, hybody, hoffset, hlands⟩ := h.exists_landing hc hlt
    refine ⟨y, hy, hybody, hoffset, ?_⟩
    rcases hlands with rfl | ⟨hcbody, hv⟩
    · exact .edge hadj
    · exact .step hadj ⟨c, hc, hcbody, rfl⟩ hv

/-- What there is at an instruction: its block, its opcode and its node. -/
theorem node_cases (h : b.Inv events) {i : Nat} (hi : i < (emitted events).length) :
    ∃ x ∈ b.graph.blocks, ∃ p ins q, x.body = p ++ ins :: q
      ∧ i = offset b.graph.blocks x.id + p.length ∧ (emitted events)[i]? = some ins.opcode
      ∧ b.graph.purge.flowGraph.nodes[i]? = some ⟨i, ins.opcode.writes?, ins.opcode.reads?,
          if q = [] then b.graph.purge.nodesAfter b.graph.purge.hollowEdges x
          else .singleton (i + 1)⟩ := by
  rw [← h.layout.length_bodies] at hi
  obtain ⟨x, n, p, ins, q, hx, hbody, rfl⟩ := exists_startsAt _ _ hi
  have hget := hx.getElem?_bodies hbody
  have hid : ins.id = n + p.length := by
    have hids : ((bodies b.graph.blocks).map Instruction.id)[n + p.length]? = some ins.id := by
      rw [List.getElem?_map, hget, Option.map_some]
    rw [h.layout.instIds, List.getElem?_range hi, Option.some.injEq] at hids
    exact hids.symm
  obtain ⟨hmem, rfl⟩ := h.layout.startsAt_iff.mp hx
  refine ⟨x, hmem, p, ins, q, hbody, rfl, ?_, ?_⟩
  · rw [← h.layout.opcodes, List.getElem?_map, hget, Option.map_some]
  · have hpurged : StartsAt b.graph.purge.blocks x (offset b.graph.blocks x.id) :=
      startsAt_filter.mpr ⟨hx, not_isRemovable (by simp [hbody])⟩
    rw [BlockGraph.getElem?_nodes hpurged hbody, hid]

theorem size_flowGraph (h : b.Inv events) :
    b.graph.purge.flowGraph.size = (emitted events).length := by
  rw [BlockGraph.size_flowGraph, BlockGraph.purge, bodies_filter, h.layout.length_bodies]

theorem getElem?_nodes_eq_none (h : b.Inv events) {i : Nat} (hi : (emitted events).length ≤ i) :
    b.graph.purge.flowGraph.nodes[i]? = none := by
  rw [← h.size_flowGraph] at hi
  exact Array.getElem?_eq_none hi

theorem nodes_eq (h : b.Inv events) :
    b.graph.purge.flowGraph.nodes.toList.map (fun n => (n.inst, n.writes, n.reads))
      = (emitted events).mapIdx fun i op => (i, op.writes?, op.reads?) := by
  refine List.ext_getElem? fun i => ?_
  rw [List.getElem?_map, List.getElem?_mapIdx, Array.getElem?_toList]
  by_cases hi : i < (emitted events).length
  · obtain ⟨x, -, p, ins, q, -, -, hop, hnode⟩ := h.node_cases hi
    rw [hop, hnode]
    rfl
  · have hle := Nat.le_of_not_lt hi
    rw [h.getElem?_nodes_eq_none hle, List.getElem?_eq_none hle]
    rfl

theorem reads?_eq (h : b.Inv events) (i : Nat) :
    b.graph.purge.flowGraph.reads? i = (emitted events)[i]?.bind Opcode.reads? := by
  by_cases hi : i < (emitted events).length
  · obtain ⟨x, -, p, ins, q, -, -, hop, hnode⟩ := h.node_cases hi
    rw [FlowGraph.reads?, hop, hnode, Option.bind_some, Option.bind_some]
  · have hle := Nat.le_of_not_lt hi
    rw [FlowGraph.reads?, h.getElem?_nodes_eq_none hle, List.getElem?_eq_none hle]
    rfl

theorem writes?_eq (h : b.Inv events) (i : Nat) :
    b.graph.purge.flowGraph.writes? i = (emitted events)[i]?.bind Opcode.writes? := by
  by_cases hi : i < (emitted events).length
  · obtain ⟨x, -, p, ins, q, -, -, hop, hnode⟩ := h.node_cases hi
    rw [FlowGraph.writes?, hop, hnode, Option.bind_some, Option.bind_some]
  · have hle := Nat.le_of_not_lt hi
    rw [FlowGraph.writes?, h.getElem?_nodes_eq_none hle, List.getElem?_eq_none hle]
    rfl

/-- From the last instruction of a block control passes on as the block leads. -/
theorem leads_iff_follows (h : b.Inv events) (hx : x ∈ b.graph.blocks) {p : List Instruction}
    {ins : Instruction} (hbody : x.body = p ++ [ins]) :
    (∃ c ∈ b.graph.blocks, x.Leads c ∧ offset b.graph.blocks c.id = j)
        ∧ j < (bodies b.graph.blocks).length ↔
      ((j = offset b.graph.blocks x.id + p.length + 1 ∧ ins.opcode.isGoto = false)
        ∨ ∃ l, ins.opcode.target? = some l ∧ PlacedAt events l j)
        ∧ j < (bodies b.graph.blocks).length := by
  have hlast : x.lastOpcode? = some ins.opcode := by simp [Block.lastOpcode?, hbody]
  have htarget : x.target? = ins.opcode.target? := by simp [Block.target?, hlast]
  have hgoto : x.endsInGoto = ins.opcode.isGoto := by simp [Block.endsInGoto, hlast]
  have hsucc : offset b.graph.blocks (x.id + 1) = offset b.graph.blocks x.id + p.length + 1 := by
    rw [h.layout.offset_succ hx, hbody, List.length_append, List.length_singleton, Nat.add_assoc]
  refine and_congr_left fun hlt => ?_
  constructor
  · rintro ⟨c, hc, ⟨hid, hfalls⟩ | ⟨l, hl, hcl⟩, rfl⟩
    · exact Or.inl ⟨by rw [hid, hsucc], hgoto ▸ hfalls⟩
    · refine Or.inr ⟨l, htarget ▸ hl, (h.layout.placed l _).mpr ⟨c, ?_, hcl⟩⟩
      exact h.layout.startsAt_iff.mpr ⟨hc, rfl⟩
  · rintro (⟨rfl, hfalls⟩ | ⟨l, hl, hplaced⟩)
    · obtain ⟨c, hc, hid⟩ := h.layout.exists_next (k := x.id + 1) (hsucc ▸ hlt)
      exact ⟨c, hc, Or.inl ⟨hid, hgoto.trans hfalls⟩, by rw [hid, hsucc]⟩
    · obtain ⟨c, hstarts, hcl⟩ := (h.layout.placed l j).mp hplaced
      obtain ⟨hc, hoffset⟩ := h.layout.startsAt_iff.mp hstarts
      exact ⟨c, hc, Or.inr ⟨l, htarget.trans hl, hcl⟩, hoffset⟩

theorem mem_succs_iff (h : b.Inv events) {i : Nat} :
    j ∈ b.graph.purge.flowGraph.succs i ↔ Follows events i j := by
  by_cases hi : i < (emitted events).length
  · obtain ⟨x, hx, p, ins, q, hbody, hoffset, hop, hnode⟩ := h.node_cases hi
    have hfollows : Follows events i j ↔ ((j = i + 1 ∧ ins.opcode.isGoto = false)
        ∨ ∃ l, ins.opcode.target? = some l ∧ PlacedAt events l j)
        ∧ j < (bodies b.graph.blocks).length := by
      simp only [Follows, hop, Option.some.injEq, exists_eq_left', h.layout.length_bodies, and_comm]
    rw [FlowGraph.succs, hnode, Option.map_some, Option.getD_some, hfollows]
    split_ifs with hq
    · subst hq
      have hne : x.body ≠ [] := by simp [hbody]
      rw [h.mem_nodesAfter hx hne, and_comm, h.leads_iff_follows hx hbody, hoffset]
    · -- inside a block there is no jump, and the next instruction is there
      have htarget : ins.opcode.target? = none := by
        refine h.layout.closed x hx ins ?_
        rw [hbody, List.dropLast_append_of_ne_nil (by simp), List.dropLast_cons_of_ne_nil hq]
        simp
      have hgoto := Opcode.isGoto_of_target?_eq_none htarget
      have hle := h.layout.offset_add_le hx
      have hpos := List.length_pos_of_ne_nil hq
      rw [hbody, List.length_append, List.length_cons] at hle
      rw [OrdSet.mem_singleton, htarget, hgoto]
      constructor
      · rintro rfl
        exact ⟨Or.inl ⟨rfl, rfl⟩, by omega⟩
      · rintro ⟨⟨hj, -⟩ | ⟨l, hl, -⟩, -⟩
        · exact hj
        · exact absurd hl (by simp)
  · have hle := Nat.le_of_not_lt hi
    rw [FlowGraph.succs, h.getElem?_nodes_eq_none hle]
    constructor
    · intro hj
      exact absurd hj OrdSet.not_mem_empty
    · rintro ⟨op, hop, -⟩
      rw [List.getElem?_eq_none hle] at hop
      exact absurd hop (by simp)

end Builder.Inv

theorem FlowGraph.lt_size_of_mem_succs {f : FlowGraph} {i j : Nat} (h : j ∈ f.succs i) :
    i < f.size := by
  by_contra hi
  rw [FlowGraph.succs, Array.getElem?_eq_none (Nat.le_of_not_lt hi)] at h
  exact OrdSet.not_mem_empty h

theorem FlowGraph.mem_preds {f : FlowGraph} {i j : Nat} : i ∈ f.preds j ↔ j ∈ f.succs i := by
  rw [FlowGraph.preds, OrdSet.mem_ofList, List.mem_filter, List.mem_range, decide_eq_true_eq]
  exact ⟨And.right, fun h => ⟨FlowGraph.lt_size_of_mem_succs h, h⟩⟩

/-- The flow graph of a stream of events has a node for each instruction, in order, with the slots
that it writes and reads, and an edge exactly where control may pass by the events. -/
theorem flowGraph_exact {head : Head} {events : List Event} {g : BlockGraph}
    (h : BlockGraph.build head events = .ok g) :
    g.flowGraph.nodes.toList.map (fun n => (n.inst, n.writes, n.reads))
        = (emitted events).mapIdx (fun i op => (i, op.writes?, op.reads?))
      ∧ (∀ i j, j ∈ g.flowGraph.succs i ↔ Follows events i j)
      ∧ ∀ i j, i ∈ g.flowGraph.preds j ↔ j ∈ g.flowGraph.succs i := by
  obtain ⟨b, hb, -, rfl⟩ := BlockGraph.exists_of_build h
  exact ⟨hb.nodes_eq, fun i j => hb.mem_succs_iff, fun i j => FlowGraph.mem_preds⟩

/-- Two labels on one place, a jump to the next line, a jump back and a label at the end. -/
def stackedLabels : List Event :=
  [.emit (.load ⟨1, Slot.one_lt_total⟩), .jump (.zero .eq) "B", .label "A", .label "B",
    .emit (.store ⟨1, Slot.one_lt_total⟩), .emit (.jump .always "A"), .label "E"]

theorem flowGraph_exact_stackedLabels : ∃ g, BlockGraph.build .blank stackedLabels = .ok g
    ∧ g.flowGraph.size = 4
    ∧ g.flowGraph.nodes.toList.map (fun n => (n.inst, n.writes, n.reads))
        = (emitted stackedLabels).mapIdx (fun i op => (i, op.writes?, op.reads?))
    ∧ (∀ i j, j ∈ g.flowGraph.succs i ↔ Follows stackedLabels i j)
    ∧ ∀ i j, i ∈ g.flowGraph.preds j ↔ j ∈ g.flowGraph.succs i :=
  ⟨_, rfl, by decide, flowGraph_exact rfl⟩

end Edges

end SlotColoring
