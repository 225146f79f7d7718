import SlotColoring.Proofs.FlowEdges

/-!
# The edges of a finished graph

A removable block has no label, so only the block before it leads to it, and it leads only to the
block after it.  A path through removed blocks is therefore a jump straight to its label, or it
falls from one block to the next that is kept (`Builder.Inv.via_removed_iff`).  So the finished
graph joins a block to the next one in its own program order, unless the block ends in `goto`, and
to the block whose label its last instruction names, and joins nothing else (`Finished.adj_iff`).
-/

namespace SlotColoring

/-- The block `c` follows `a` in program order. -/
def IsNext (bs : List Block) (a c : Block) : Prop :=
  ∃ before after, bs = before ++ a :: c :: after

/-- Only removable blocks stand between `a` and the later block `c`. -/
def Across (bs : List Block) (a c : Block) : Prop :=
  ∃ before mid after, bs = before ++ a :: (mid ++ c :: after) ∧ ∀ z ∈ mid, z.isRemovable = true

/-- Control may pass from `a` to `c`, by the order of the blocks and the end of `a`. -/
def BlockGraph.Joins (g : BlockGraph) (a c : Block) : Prop :=
  (a.endsInGoto = false ∧ IsNext g.blocks a c) ∨ ∃ l, a.target? = some l ∧ c.label = some l

/-- No label stands at two places. -/
def PlacedOnce (events : List Event) : Prop :=
  ∀ l m n, PlacedAt events l m → PlacedAt events l n → m = n

/-- What a graph is that was finished after the events. -/
structure Finished (events : List Event) (g : BlockGraph) : Prop where
  ids : (g.blocks.map Block.id).Nodup
  opcodes : (bodies g.blocks).map Instruction.opcode = emitted events
  closed : ∀ x ∈ g.blocks, ∀ i ∈ x.body.dropLast, i.opcode.target? = none
  placed : ∀ l n, PlacedAt events l n ↔ ∃ x, StartsAt g.blocks x n ∧ x.label = some l
  once : PlacedOnce events
  labels : (labelsOf g.blocks).Nodup
  resolved : ∀ x ∈ g.blocks, ∀ l, x.target? = some l → ∃ y ∈ g.blocks, y.label = some l
  kept : ∀ x ∈ g.blocks, x.isRemovable = false
  adj_iff : ∀ x y, g.flow.Adj x y ↔ ∃ a ∈ g.blocks, ∃ c ∈ g.blocks,
    a.id = x ∧ c.id = y ∧ g.Joins a c

section Order

variable {done : List Event} {bs : List Block} {a c z : Block}

theorem isNext_filter : IsNext (bs.filter fun y => !y.isRemovable) a c ↔
    Across bs a c ∧ a.isRemovable = false ∧ c.isRemovable = false := by
  constructor
  · rintro ⟨before, after, h⟩
    obtain ⟨cs, ds, rfl, -, hds⟩ := List.filter_eq_append_iff.mp h
    obtain ⟨es, fs, rfl, -, ha, hfs⟩ := List.filter_eq_cons_iff.mp hds
    obtain ⟨mid, rest, rfl, hmid, hc, -⟩ := List.filter_eq_cons_iff.mp hfs
    refine ⟨⟨cs ++ es, mid, rest, by simp, fun z hz => by simpa using hmid z hz⟩, ?_, ?_⟩
    · simpa using ha
    · simpa using hc
  · rintro ⟨⟨before, mid, after, rfl, hmid⟩, ha, hc⟩
    have hnone : mid.filter (fun y => !y.isRemovable) = [] := by
      rw [List.filter_eq_nil_iff]
      intro z hz
      simp [hmid z hz]
    refine ⟨before.filter fun y => !y.isRemovable, after.filter fun y => !y.isRemovable, ?_⟩
    simp [ha, hc, hnone]

namespace Layout

theorem id_eq_length (h : Layout done bs) {before after : List Block}
    (hbs : bs = before ++ a :: after) : a.id = before.length := by
  have hget := congrArg (·[before.length]?) h.ids
  simpa [hbs] using hget

theorem placedOnce (h : Layout done bs) : PlacedOnce done := by
  intro l m n hm hn
  obtain ⟨x, hx, hxl⟩ := (h.placed l m).mp hm
  obtain ⟨y, hy, hyl⟩ := (h.placed l n).mp hn
  rw [eq_of_label_eq h.labels hy.mem hx.mem hyl hxl] at hy
  rw [← (h.startsAt_iff.mp hx).2, ← (h.startsAt_iff.mp hy).2]

theorem isNext_iff (h : Layout done bs) :
    IsNext bs a c ↔ a ∈ bs ∧ c ∈ bs ∧ c.id = a.id + 1 := by
  constructor
  · rintro ⟨before, after, hbs⟩
    have ha := h.id_eq_length hbs
    have hc := h.id_eq_length (hbs.trans (List.append_cons ..))
    rw [List.length_append, List.length_singleton, ← ha] at hc
    exact ⟨by simp [hbs], by simp [hbs], hc⟩
  · rintro ⟨ha, hc, hid⟩
    obtain ⟨before, rest, rfl⟩ := List.append_of_mem ha
    have hpos := h.id_eq_length rfl
    have hget := h.getElem?_id hc
    rw [hid, hpos, List.append_cons, List.getElem?_append_right (by simp)] at hget
    cases rest with
    | nil => simp at hget
    | cons d rest =>
      obtain rfl : d = c := by simpa using hget
      exact ⟨before, rest, rfl⟩

theorem across_of_next (h : Layout done bs) (haz : IsNext bs a z) (hz : z.isRemovable = true)
    (hzc : Across bs z c) : Across bs a c := by
  obtain ⟨before, after, hbs⟩ := haz
  obtain ⟨before', mid, after', hbs', hmid⟩ := hzc
  -- both ways to cut the list put `z` at the place that its id gives
  have hlen : (before ++ [a]).length = before'.length := by
    rw [← h.id_eq_length hbs', ← h.id_eq_length (hbs.trans (List.append_cons ..))]
  rw [hbs, List.append_cons] at hbs'
  obtain ⟨rfl, hrest⟩ := List.append_inj hbs' hlen
  refine ⟨before, z :: mid, after', ?_, ?_⟩
  · rw [hbs, List.append_cons, hrest, ← List.append_cons, List.cons_append]
  · intro y hy
    rcases List.mem_cons.mp hy with rfl | hy
    · exact hz
    · exact hmid y hy

end Layout

end Order

section Purged

variable {events : List Event} {b : Builder} {a c : Block}

namespace Builder.Inv

/-- Where a path through removed blocks can go: to the block with the label that the first block
names, or down to the next block that is kept. -/
theorem across_of_via (h : b.Inv events) {m n : Nat} (hv : b.flow.Via b.graph.Removed m n) :
    ∃ a ∈ b.graph.blocks, ∃ c ∈ b.graph.blocks, a.id = m ∧ c.id = n
      ∧ ((a.endsInGoto = false ∧ Across b.graph.blocks a c)
        ∨ ∃ l, a.target? = some l ∧ c.label = some l) := by
  induction hv with
  | edge hmn =>
    obtain ⟨a, ha, c, hc, rfl, rfl, hac⟩ := (h.wired.adj_iff _ _).mp hmn
    refine ⟨a, ha, c, hc, rfl, rfl, hac.imp_left fun ⟨hid, hgoto⟩ => ⟨hgoto, ?_⟩⟩
    obtain ⟨before, after, hbs⟩ := h.layout.isNext_iff.mpr ⟨ha, hc, hid⟩
    exact ⟨before, [], after, hbs, by simp⟩
  | step hmz hremoved _ ih =>
    obtain ⟨z, hz, c, hc, rfl, rfl, hzc⟩ := ih
    obtain ⟨a, ha, z', hz', rfl, hid, haz⟩ := (h.wired.adj_iff _ _).mp hmz
    obtain rfl := h.layout.eq_of_id_eq hz' hz hid
    have hremovable := hremoved.isRemovable h.nodup_ids hz
    obtain ⟨hlabel, hbody⟩ := isRemovable_iff.mp hremovable
    refine ⟨a, ha, c, hc, rfl, rfl, Or.inl ?_⟩
    rcases haz with ⟨hnext, hgoto⟩ | ⟨l, -, hl⟩
    · rcases hzc with ⟨-, hacross⟩ | ⟨l, hl, -⟩
      · have haz := h.layout.isNext_iff.mpr ⟨ha, hz, hnext⟩
        exact ⟨hgoto, h.layout.across_of_next haz hremovable hacross⟩
      · simp [Block.target?_of_body_eq_nil hbody] at hl
    · simp [hlabel] at hl

theorem via_of_across (h : b.Inv events) : ∀ (mid : List Block) {before after : List Block}
    {a : Block}, b.graph.blocks = before ++ a :: (mid ++ c :: after) →
    (∀ z ∈ mid, z.isRemovable = true) → a.endsInGoto = false →
    b.flow.Via b.graph.Removed a.id c.id
  | [], before, after, a, hbs, _, hgoto => by
    obtain ⟨ha, hc, hid⟩ := h.layout.isNext_iff.mp ⟨before, after, hbs⟩
    exact .edge ((h.wired.adj_iff _ _).mpr ⟨a, ha, c, hc, rfl, rfl, Or.inl ⟨hid, hgoto⟩⟩)
  | z :: mid, before, after, a, hbs, hmid, hgoto => by
    obtain ⟨ha, hz, hid⟩ := h.layout.isNext_iff.mp ⟨before, mid ++ c :: after, hbs⟩
    have hremovable := hmid z List.mem_cons_self
    have hrest := h.via_of_across mid (hbs.trans (List.append_cons ..))
      (fun y hy => hmid y (List.mem_cons_of_mem _ hy))
      (Block.endsInGoto_of_body_eq_nil (isRemovable_iff.mp hremovable).2)
    exact .step ((h.wired.adj_iff _ _).mpr ⟨a, ha, z, hz, rfl, rfl, Or.inl ⟨hid, hgoto⟩⟩)
      ⟨z, hz, hremovable, rfl⟩ hrest

theorem via_removed_iff (h : b.Inv events) (ha : a ∈ b.graph.blocks) (hc : c ∈ b.graph.blocks) :
    b.flow.Via b.graph.Removed a.id c.id ↔
      (a.endsInGoto = false ∧ Across b.graph.blocks a c)
        ∨ ∃ l, a.target? = some l ∧ c.label = some l := by
  constructor
  · intro hv
    obtain ⟨a', ha', c', hc', haid, hcid, hjoin⟩ := h.across_of_via hv
    rwa [h.layout.eq_of_id_eq ha' ha haid, h.layout.eq_of_id_eq hc' hc hcid] at hjoin
  · rintro (⟨hgoto, before, mid, after, hbs, hmid⟩ | hlabel)
    · exact h.via_of_across mid hbs hmid hgoto
    · exact .edge ((h.wired.adj_iff _ _).mpr ⟨a, ha, c, hc, rfl, rfl, Or.inr hlabel⟩)

theorem adj_purge_iff (h : b.Inv events) (x y : Nat) : b.graph.purge.flow.Adj x y ↔
    ∃ a ∈ b.graph.purge.blocks, ∃ c ∈ b.graph.purge.blocks,
      a.id = x ∧ c.id = y ∧ b.graph.purge.Joins a c := by
  rw [BlockGraph.adj_purge]
  have hjoins : ∀ {a c : Block}, a ∈ b.graph.purge.blocks → c ∈ b.graph.purge.blocks →
      (b.flow.Via b.graph.Removed a.id c.id ↔ b.graph.purge.Joins a c) := by
    intro a c ha hc
    obtain ⟨ha', hakept⟩ := BlockGraph.mem_purge_blocks.mp ha
    obtain ⟨hc', hckept⟩ := BlockGraph.mem_purge_blocks.mp hc
    have hnext : IsNext b.graph.purge.blocks a c ↔ _ := isNext_filter
    rw [h.via_removed_iff ha' hc', BlockGraph.Joins, hnext]
    simp only [hakept, hckept, and_true]
  constructor
  · rintro ⟨hx, hy, hv⟩
    obtain ⟨a, ha, c, hc, rfl, rfl, -⟩ := h.across_of_via hv
    have hkeep : ∀ {z : Block}, z ∈ b.graph.blocks → ¬ b.graph.Removed z.id →
        z ∈ b.graph.purge.blocks := by
      intro z hz hid
      exact BlockGraph.mem_purge_blocks.mpr
        ⟨hz, Bool.eq_false_iff.mpr fun hremovable => hid ⟨z, hz, hremovable, rfl⟩⟩
    exact ⟨a, hkeep ha hx, c, hkeep hc hy, rfl, rfl, (hjoins (hkeep ha hx) (hkeep hc hy)).mp hv⟩
  · rintro ⟨a, ha, c, hc, rfl, rfl, hjoin⟩
    exact ⟨BlockGraph.not_removed h.nodup_ids ha, BlockGraph.not_removed h.nodup_ids hc,
      (hjoins ha hc).mpr hjoin⟩

theorem resolved (h : b.Inv events) (hpending : b.pending.entries = []) {l : Label}
    (ha : a ∈ b.graph.blocks) (hl : a.target? = some l) :
    ∃ c ∈ b.graph.blocks, c.label = some l := by
  by_contra hnone
  have hnew : l ∉ labelsOf b.graph.blocks := fun hmem => hnone (mem_labelsOf.mp hmem)
  have hentry : (l, a.id) ∈ b.pending.entries := by
    rw [h.wired.entries_eq]
    exact List.mem_filterMap.mpr ⟨a, ha, awaited_eq_some.mpr ⟨hl, hnew, rfl⟩⟩
  rw [hpending] at hentry
  exact absurd hentry List.not_mem_nil

theorem finished (h : b.Inv events) (hpending : b.pending.entries = []) :
    Finished events b.graph.purge := by
  have hlabelled : ∀ {z : Block} {l : Label}, z.label = some l → z.isRemovable = false := by
    intro z l hl
    rw [← Bool.not_eq_true, isRemovable_iff, hl]
    simp
  refine ⟨?_, ?_, ?_, ?_, h.layout.placedOnce, ?_, ?_, ?_, h.adj_purge_iff⟩
  · exact BlockGraph.nodup_ids_purge h.nodup_ids
  · rw [BlockGraph.purge, bodies_filter, h.layout.opcodes]
  · intro x hx
    exact h.layout.closed x (BlockGraph.mem_purge_blocks.mp hx).1
  · intro l n
    rw [h.layout.placed]
    constructor
    · rintro ⟨x, hx, hl⟩
      exact ⟨x, startsAt_filter.mpr ⟨hx, hlabelled hl⟩, hl⟩
    · rintro ⟨x, hx, hl⟩
      exact ⟨x, (startsAt_filter.mp hx).1, hl⟩
  · exact h.layout.labels.sublist (List.filter_sublist.filterMap _)
  · intro x hx l hl
    obtain ⟨c, hc, hcl⟩ := h.resolved hpending (BlockGraph.mem_purge_blocks.mp hx).1 hl
    exact ⟨c, BlockGraph.mem_purge_blocks.mpr ⟨hc, hlabelled hcl⟩, hcl⟩
  · intro x hx
    exact (BlockGraph.mem_purge_blocks.mp hx).2

end Builder.Inv

theorem BlockGraph.finished_of_build {head : Head} {g : BlockGraph}
    (h : BlockGraph.build head events = .ok g) : Finished events g := by
  obtain ⟨b, hb, hpending, rfl⟩ := BlockGraph.exists_of_build h
  exact hb.finished hpending

end Purged

namespace Finished

variable {events : List Event} {g : BlockGraph} {a : Block}

theorem eq_of_id_eq (h : Finished events g) {x y : Block} (hx : x ∈ g.blocks) (hy : y ∈ g.blocks)
    (hid : x.id = y.id) : x = y :=
  List.inj_on_of_nodup_map h.ids hx hy hid

theorem mem_succs_iff (h : Finished events g) (ha : a ∈ g.blocks) (y : Nat) :
    y ∈ g.succs a.id ↔ ∃ c ∈ g.blocks, c.id = y ∧ g.Joins a c := by
  rw [BlockGraph.succs, Digraph.mem_succs, h.adj_iff]
  constructor
  · rintro ⟨a', ha', c, hc, haid, hcid, hjoin⟩
    rw [h.eq_of_id_eq ha' ha haid] at hjoin
    exact ⟨c, hc, hcid, hjoin⟩
  · rintro ⟨c, hc, hcid, hjoin⟩
    exact ⟨a, ha, c, hc, rfl, hcid, hjoin⟩

theorem existsUnique_label (h : Finished events g) {l : Label} (hl : Event.label l ∈ events) :
    ∃! c, c ∈ g.blocks ∧ c.label = some l := by
  obtain ⟨before, after, hsplit⟩ := List.append_of_mem hl
  obtain ⟨c, hc, hcl⟩ := (h.placed l _).mp ⟨before, after, hsplit, rfl⟩
  refine ⟨c, ⟨hc.mem, hcl⟩, ?_⟩
  rintro d ⟨hd, hdl⟩
  exact Layout.eq_of_label_eq h.labels hd hc.mem hdl hcl

/-- After `goto` there is one place to go. -/
theorem succs_of_endsInGoto (h : Finished events g) (ha : a ∈ g.blocks)
    (hgoto : a.endsInGoto = true) : ∃ y, ∀ x, x ∈ g.succs a.id ↔ x = y := by
  obtain ⟨l, hl⟩ : ∃ l, a.target? = some l := by
    unfold Block.endsInGoto at hgoto
    rcases hlast : a.lastOpcode? with _ | op
    · simp [hlast] at hgoto
    · rw [Block.target?, hlast, Option.bind_some]
      rw [hlast, Option.any_some] at hgoto
      by_contra hnone
      have htarget : op.target? = none := Option.eq_none_iff_forall_ne_some.mpr fun l hl =>
        hnone ⟨l, hl⟩
      rw [Opcode.isGoto_of_target?_eq_none htarget] at hgoto
      exact absurd hgoto (by simp)
  obtain ⟨c, hc, hcl⟩ := h.resolved a ha l hl
  refine ⟨c.id, fun x => ?_⟩
  rw [h.mem_succs_iff ha]
  constructor
  · rintro ⟨d, hd, rfl, ⟨hfalls, -⟩ | ⟨m, hm, hdm⟩⟩
    · rw [hgoto] at hfalls
      exact absurd hfalls (by simp)
    · obtain rfl : m = l := by simpa [hl] using hm.symm
      rw [Layout.eq_of_label_eq h.labels hd hc hdm hcl]
  · rintro rfl
    exact ⟨c, hc, rfl, Or.inr ⟨l, hl, hcl⟩⟩

end Finished

/-- The blocks of a finished graph cut the emitted instructions at the jumps and labels, and its
edges are those that the order of the blocks and their last instructions call for. -/
theorem build_edges_exact {head : Head} {events : List Event} {g : BlockGraph}
    (h : BlockGraph.build head events = .ok g) :
    (∀ b ∈ g.blocks, ∀ i ∈ b.body.dropLast, i.opcode.target? = none)
      ∧ g.instructions.map Instruction.opcode = emitted events
      ∧ (∀ l, Event.label l ∈ events → ∃! b, b ∈ g.blocks ∧ b.label = some l)
      ∧ (∀ b ∈ g.blocks, b.isRemovable = false)
      ∧ (g.blocks.map Block.id).Nodup
      ∧ (∀ b ∈ g.blocks, ∀ y, y ∈ g.succs b.id ↔ ∃ c ∈ g.blocks, c.id = y
          ∧ ((b.endsInGoto = false ∧ ∃ before after, g.blocks = before ++ b :: c :: after)
            ∨ ∃ l, b.target? = some l ∧ c.label = some l))
      ∧ (∀ x y, x ∈ g.preds y ↔ y ∈ g.succs x)
      ∧ ∀ b ∈ g.blocks, b.endsInGoto = true → ∃ y, ∀ x, x ∈ g.succs b.id ↔ x = y := by
  have hf := BlockGraph.finished_of_build h
  refine ⟨hf.closed, hf.opcodes, fun l hl => hf.existsUnique_label hl, hf.kept, hf.ids,
    fun b hb y => hf.mem_succs_iff hb y, fun x y => ?_, fun b hb => hf.succs_of_endsInGoto hb⟩
  rw [BlockGraph.preds, BlockGraph.succs, Digraph.mem_preds, Digraph.mem_succs]

/-- Of the six blocks that are opened here, the two after the jumps are purged. -/
theorem build_edges_exact_stackedLabels : ∃ g, BlockGraph.build .blank stackedLabels = .ok g
    ∧ g.blocks.map Block.id = [0, 2, 3, 5]
    ∧ (∀ l, Event.label l ∈ stackedLabels → ∃! b, b ∈ g.blocks ∧ b.label = some l)
    ∧ (∀ b ∈ g.blocks, b.isRemovable = false)
    ∧ ∀ b ∈ g.blocks, ∀ y, y ∈ g.succs b.id ↔ ∃ c ∈ g.blocks, c.id = y
        ∧ ((b.endsInGoto = false ∧ ∃ before after, g.blocks = before ++ b :: c :: after)
          ∨ ∃ l, b.target? = some l ∧ c.label = some l) := by
  have hb : BlockGraph.build .blank stackedLabels = .ok _ := rfl
  obtain ⟨-, -, hlabels, hkept, -, hsuccs, -, -⟩ := build_edges_exact hb
  exact ⟨_, hb, by decide, hlabels, hkept, hsuccs⟩

end SlotColoring
