import SlotColoring.Proofs.Layout

/-!
# How blocks are joined

Control passes from one block to the next in program order unless the first ends in `goto`, and to
the block whose label its last instruction names (`Block.Leads`).  The edges of a builder join
exactly the blocks that lead to one another, and its pending jumps are those whose label no block
carries yet, in program order (`Wired`).  Every event keeps that, so it holds of what a builder
makes of any events (`Builder.Inv.feedAll`): a jump forward has no edge until its label is placed,
and all that waited for the label get theirs then.
-/

namespace SlotColoring

/-- Control may pass from the end of one block to the start of the other. -/
def Block.Leads (a c : Block) : Prop :=
  (c.id = a.id + 1 ∧ a.endsInGoto = false) ∨ ∃ l, a.target? = some l ∧ c.label = some l

/-- Among the blocks is one with id `x` that leads to one with id `y`. -/
def Joined (bs : List Block) (x y : Nat) : Prop :=
  ∃ a ∈ bs, ∃ c ∈ bs, a.id = x ∧ c.id = y ∧ a.Leads c

/-- The label that a jump at the end of the block waits for, if it is none of those placed. -/
def awaited (labels : List Label) (x : Block) : Option (Label × Nat) :=
  x.target?.bind fun l => if l ∈ labels then none else some (l, x.id)

/-- Edges and pending jumps are those that the blocks call for. -/
structure Wired (bs : List Block) (flow : Digraph) (pending : PendingJumps) : Prop where
  adj_iff : ∀ x y, flow.Adj x y ↔ Joined bs x y
  entries_eq : pending.entries = bs.filterMap (awaited (labelsOf bs))

/-- The builder has made of the events what it should, and its newest block is not closed yet. -/
structure Builder.Inv (done : List Event) (b : Builder) : Prop where
  layout : Layout done b.graph.blocks
  wired : Wired b.graph.blocks b.flow b.pending
  idle : ∀ x, b.blocks.head? = some x → x.target? = none

section Joined

variable {done : List Event} {bs before : List Block} {cur : Block} {x y : Nat}

theorem Block.Leads.congr {a c c' : Block} (h : a.Leads c) (hid : c'.id = c.id)
    (hlabel : c'.label = c.label) : a.Leads c' := by
  rcases h with ⟨hnext, hgoto⟩ | ⟨l, hl, hc⟩
  · exact Or.inl ⟨hid.trans hnext, hgoto⟩
  · exact Or.inr ⟨l, hl, hlabel.trans hc⟩

theorem Layout.last_id (h : Layout done (before ++ [cur])) : cur.id = before.length := by
  have hids := h.ids
  rw [List.map_append, List.length_append, List.length_singleton, List.range_succ] at hids
  exact List.singleton_inj.mp (List.append_inj' hids rfl).2

/-- A block that is opened at the end is led to, but leads nowhere yet. -/
theorem joined_grow (h : Layout done bs) (label : Option Label) :
    Joined (bs ++ [⟨bs.length, label, []⟩]) x y ↔ Joined bs x y
      ∨ (y = bs.length ∧ ∃ a ∈ bs, a.id = x ∧ a.Leads ⟨bs.length, label, []⟩) := by
  constructor
  · rintro ⟨a, ha, c, hc, rfl, rfl, hac⟩
    rw [List.mem_append, List.mem_singleton] at ha hc
    rcases ha with ha | rfl
    · rcases hc with hc | rfl
      · exact Or.inl ⟨a, ha, c, hc, rfl, rfl, hac⟩
      · exact Or.inr ⟨rfl, a, ha, rfl, hac⟩
    · rcases hac with ⟨hnext, -⟩ | ⟨l, hl, -⟩
      · simp only at hnext
        rcases hc with hc | rfl
        · have := h.id_lt hc
          omega
        · simp at hnext
      · simp [Block.target?_of_body_eq_nil] at hl
  · rintro (⟨a, ha, c, hc, hx, hy, hac⟩ | ⟨rfl, a, ha, hx, hac⟩)
    · exact ⟨a, List.mem_append_left _ ha, c, List.mem_append_left _ hc, hx, hy, hac⟩
    · exact ⟨a, List.mem_append_left _ ha, _, by simp, hx, rfl, hac⟩

/-- An instruction at the end of the newest block makes it lead to the blocks with the label that
it names, and to no others. -/
theorem joined_extend (h : Layout done (before ++ [cur])) (hcur : cur.target? = none) (n : Nat)
    (op : Opcode) :
    Joined (before ++ [cur.extend n op]) x y ↔ Joined (before ++ [cur]) x y
      ∨ (x = cur.id ∧ ∃ l, op.target? = some l
          ∧ ∃ c ∈ before ++ [cur], c.label = some l ∧ c.id = y) := by
  have hlast := h.last_id
  have hnonext : ∀ c ∈ before ++ [cur], c.id ≠ cur.id + 1 := by
    intro c hc
    have := h.id_lt hc
    rw [List.length_append, List.length_singleton] at this
    omega
  -- the newest block before and after the push agree in id and label
  have hold : ∀ c ∈ before ++ [cur.extend n op],
      ∃ c' ∈ before ++ [cur], c'.id = c.id ∧ c'.label = c.label := by
    intro c hc
    rcases List.mem_append.mp hc with hc | hc
    · exact ⟨c, List.mem_append_left _ hc, rfl, rfl⟩
    · rw [List.mem_singleton.mp hc]
      exact ⟨cur, by simp, rfl, rfl⟩
  have hnew : ∀ c ∈ before ++ [cur],
      ∃ c' ∈ before ++ [cur.extend n op], c'.id = c.id ∧ c'.label = c.label := by
    intro c hc
    rcases List.mem_append.mp hc with hc | hc
    · exact ⟨c, List.mem_append_left _ hc, rfl, rfl⟩
    · rw [List.mem_singleton.mp hc]
      exact ⟨cur.extend n op, by simp, rfl, rfl⟩
  constructor
  · rintro ⟨a, ha, c, hc, rfl, rfl, hac⟩
    obtain ⟨c', hc', hid, hlabel⟩ := hold c hc
    rcases List.mem_append.mp ha with ha | ha
    · exact Or.inl ⟨a, List.mem_append_left _ ha, c', hc', rfl, hid, hac.congr hid hlabel⟩
    · rw [List.mem_singleton.mp ha] at hac ⊢
      rcases hac with ⟨hnext, -⟩ | ⟨l, hl, hcl⟩
      · exact absurd (hid.trans hnext) (hnonext c' hc')
      · rw [Block.target?_extend] at hl
        exact Or.inr ⟨rfl, l, hl, c', hc', hlabel.trans hcl, hid⟩
  · rintro (⟨a, ha, c, hc, rfl, rfl, hac⟩ | ⟨rfl, l, hl, c, hc, hcl, rfl⟩)
    · obtain ⟨c', hc', hid, hlabel⟩ := hnew c hc
      rcases List.mem_append.mp ha with ha | ha
      · exact ⟨a, List.mem_append_left _ ha, c', hc', rfl, hid, hac.congr hid hlabel⟩
      · rw [List.mem_singleton.mp ha] at hac
        rcases hac with ⟨hnext, -⟩ | ⟨l, hl, -⟩
        · exact absurd hnext (hnonext c hc)
        · rw [hcur] at hl
          exact absurd hl (by simp)
    · obtain ⟨c', hc', hid, hlabel⟩ := hnew c hc
      refine ⟨cur.extend n op, by simp, c', hc', rfl, hid, Or.inr ⟨l, ?_, hlabel.trans hcl⟩⟩
      rw [Block.target?_extend, hl]

end Joined

section Awaited

variable {labels : List Label} {z : Block} {l : Label} {n : Nat}

theorem awaited_eq_none (h : z.target? = none) : awaited labels z = none := by
  simp [awaited, h]

theorem awaited_eq_some : awaited labels z = some (l, n) ↔
    z.target? = some l ∧ l ∉ labels ∧ z.id = n := by
  unfold awaited
  rcases z.target? with _ | m
  · simp
  · simp only [Option.bind_some]
    split_ifs with hm
    · simp only [Option.some.injEq, false_iff]
      rintro ⟨rfl, hl, -⟩
      exact hl hm
    · simp only [Option.some.injEq, Prod.mk.injEq]
      constructor
      · rintro ⟨rfl, rfl⟩
        exact ⟨rfl, hm, rfl⟩
      · rintro ⟨rfl, -, rfl⟩
        exact ⟨rfl, rfl⟩

theorem awaited_snoc (labels : List Label) (l : Label) (z : Block) :
    awaited (labels ++ [l]) z = (awaited labels z).filter fun e => e.1 ≠ l := by
  unfold awaited
  rcases z.target? with _ | m
  · rfl
  · by_cases hm : m ∈ labels
    · simp [hm]
    · by_cases hml : m = l
      · subst hml
        simp [hm, Option.filter_some]
      · simp [hm, hml, Option.filter_some]

theorem filterMap_awaited_extend (before : List Block) {cur : Block} (hcur : cur.target? = none)
    (n : Nat) (op : Opcode) :
    (before ++ [cur.extend n op]).filterMap
        (awaited (labelsOf (before ++ [cur.extend n op])))
      = (before ++ [cur]).filterMap (awaited (labelsOf (before ++ [cur])))
        ++ (awaited (labelsOf (before ++ [cur])) (cur.extend n op)).toList := by
  have hlabels : labelsOf (before ++ [cur.extend n op]) = labelsOf (before ++ [cur]) := by
    rw [labelsOf_append, labelsOf_append]
    rfl
  rw [hlabels, List.filterMap_append, List.filterMap_append, List.append_assoc]
  congr 1
  simp only [List.filterMap_cons, awaited_eq_none hcur, List.filterMap_nil, List.nil_append]
  rcases awaited (labelsOf (before ++ [cur])) (cur.extend n op) <;> rfl

end Awaited

namespace Builder

variable {done : List Event} {b b' : Builder}

theorem blocks_openBlock (b : Builder) (label : Option Label) :
    (b.openBlock label).graph.blocks
      = b.graph.blocks ++ [⟨b.graph.blocks.length, label, []⟩] := by
  simp [openBlock, graph, nextBlock]

theorem pending_openBlock (b : Builder) (label : Option Label) :
    (b.openBlock label).pending = b.pending := rfl

theorem nextBlock_eq (b : Builder) : b.nextBlock = b.graph.blocks.length := by
  simp [graph, nextBlock]

theorem target?_of_head?_openBlock {label : Option Label} {x : Block}
    (hx : (b.openBlock label).blocks.head? = some x) : x.target? = none := by
  simp only [openBlock, List.head?_cons, Option.some.injEq] at hx
  rw [← hx]
  exact Block.target?_of_body_eq_nil rfl

/-- Opening a block adds the edge by which control falls into it. -/
theorem adj_openBlock (h : Layout done b.graph.blocks) (label : Option Label) {x y : Nat} :
    (b.openBlock label).flow.Adj x y ↔ b.flow.Adj x y
      ∨ (y = b.graph.blocks.length ∧ ∃ a ∈ b.graph.blocks, a.id = x
          ∧ b.graph.blocks.length = a.id + 1 ∧ a.endsInGoto = false) := by
  have hlen := b.nextBlock_eq
  rw [← hlen]
  unfold openBlock
  rcases hb : b.blocks with _ | ⟨prev, older⟩
  · simp [graph, hb]
  · have hblocks : b.graph.blocks = older.reverse ++ [prev] := by simp [graph, hb]
    have hlast : prev.id + 1 = b.nextBlock := by
      rw [hblocks] at h
      rw [h.last_id, hlen, hblocks, List.length_append, List.length_singleton]
    have hprev : prev ∈ b.graph.blocks := by simp [hblocks]
    -- the only block that the new one follows is the newest so far
    have honly : ∀ a ∈ b.graph.blocks, b.nextBlock = a.id + 1 → a = prev := fun a ha hid =>
      h.eq_of_id_eq ha hprev (by omega)
    simp only
    split_ifs with hgoto
    · constructor
      · exact Or.inl
      · rintro (hxy | ⟨-, a, ha, -, hid, hfalls⟩)
        · exact hxy
        · rw [honly a ha hid, hgoto] at hfalls
          exact absurd hfalls (by simp)
    · rw [Digraph.adj_link]
      constructor
      · rintro (⟨rfl, rfl⟩ | hxy)
        · exact Or.inr ⟨rfl, prev, hprev, rfl, hlast.symm, by simpa using hgoto⟩
        · exact Or.inl hxy
      · rintro (hxy | ⟨rfl, a, ha, rfl, hid, -⟩)
        · exact Or.inr hxy
        · rw [honly a ha hid]
          exact Or.inl ⟨rfl, rfl⟩

theorem layout_openBlock_none (h : Layout done b.graph.blocks) :
    Layout done (b.openBlock none).graph.blocks := by
  rw [blocks_openBlock]
  simpa using h.grow none (by simp)

theorem wired_openBlock_none (h : Layout done b.graph.blocks)
    (hw : Wired b.graph.blocks b.flow b.pending) :
    Wired (b.openBlock none).graph.blocks (b.openBlock none).flow (b.openBlock none).pending := by
  rw [blocks_openBlock, pending_openBlock]
  refine ⟨fun x y => ?_, ?_⟩
  · rw [adj_openBlock h, joined_grow h, hw.adj_iff]
    simp [Block.Leads]
  · rw [labelsOf_append, List.filterMap_append, hw.entries_eq]
    simp [labelsOf, awaited, Block.target?_of_body_eq_nil]

theorem sumOf_length_body : ∀ bs : List Block,
    sumOf (fun x => x.body.length) bs = (bodies bs.reverse).length
  | [] => rfl
  | x :: bs => by
    rw [sumOf, sumOf_length_body bs, List.reverse_cons, bodies_append, bodies_singleton,
      List.length_append, Nat.add_comm]

theorem instCount_eq (b : Builder) : b.instCount = (bodies b.graph.blocks).length :=
  sumOf_length_body b.blocks

theorem findLabel?_eq_none {l : Label} (h : b.findLabel? l = none) :
    l ∉ labelsOf b.graph.blocks := by
  unfold findLabel? BlockGraph.findLabel? at h
  rw [Option.map_eq_none_iff, List.find?_eq_none] at h
  rw [mem_labelsOf]
  rintro ⟨x, hx, hl⟩
  exact h x hx (by simp [hl])

theorem findLabel?_eq_some {l : Label} {d : Nat} (h : b.findLabel? l = some d) :
    ∃ c ∈ b.graph.blocks, c.label = some l ∧ c.id = d := by
  unfold findLabel? BlockGraph.findLabel? at h
  obtain ⟨c, hc, rfl⟩ := Option.map_eq_some_iff.mp h
  exact ⟨c, List.mem_of_find?_eq_some hc, by simpa using List.find?_some hc, rfl⟩

namespace Inv

theorem start (head : Head) : (start head).Inv [] where
  layout := .nil
  wired := by
    refine ⟨fun x y => ⟨fun h => absurd h List.not_mem_nil, ?_⟩, rfl⟩
    rintro ⟨a, ha, -⟩
    exact absurd ha List.not_mem_nil
  idle := by simp [Builder.start]

/-- Pushing an instruction puts it at the end of the newest block; where there was none, a block
without label is opened for it first. -/
theorem push_cases (h : b.Inv done) (op : Opcode) : ∃ before cur,
    (b.push op).graph.blocks = before ++ [cur.extend (bodies (before ++ [cur])).length op]
      ∧ Layout done (before ++ [cur])
      ∧ Wired (before ++ [cur]) (b.push op).flow (b.push op).pending
      ∧ cur.target? = none ∧ cur.id = b.currentId
      ∧ labelsOf (before ++ [cur]) = labelsOf b.graph.blocks
      ∧ ∀ c ∈ b.graph.blocks, c ∈ before ++ [cur] := by
  have hcount := b.instCount_eq
  rcases hb : b.blocks with _ | ⟨cur, older⟩
  · have hblocks : b.graph.blocks = [] := by simp [graph, hb]
    have hopen : (b.openBlock none).graph.blocks = [] ++ [⟨0, none, []⟩] := by
      rw [blocks_openBlock, hblocks]
      rfl
    have hlayout := layout_openBlock_none h.layout
    have hwired := wired_openBlock_none h.layout h.wired
    rw [hopen] at hlayout hwired
    rw [hblocks] at hcount
    refine ⟨[], ⟨0, none, []⟩, ?_, hlayout, ?_, Block.target?_of_body_eq_nil rfl, ?_, ?_, ?_⟩
    · simp [push, hb, graph, openBlock, nextBlock, Block.extend, hcount, bodies]
    · simpa [push, hb] using hwired
    · simp [currentId, hb]
    · simp [hblocks, labelsOf]
    · simp [hblocks]
  · have hblocks : b.graph.blocks = older.reverse ++ [cur] := by simp [graph, hb]
    have hlayout := h.layout
    have hwired := h.wired
    rw [hblocks] at hlayout hwired hcount
    refine ⟨older.reverse, cur, ?_, hlayout, ?_, h.idle cur (by simp [hb]), ?_, ?_, ?_⟩
    · simp [push, hb, graph, Block.extend, hcount]
    · simpa [push, hb] using hwired
    · rw [hlayout.last_id, currentId, hb]
      simp
    · rw [hblocks]
    · rw [hblocks]
      exact fun _ => id

theorem push (h : b.Inv done) {e : Event} {op : Opcode} (he : e.opcode? = some op)
    (hop : op.target? = none) : (b.push op).Inv (done ++ [e]) := by
  obtain ⟨before, cur, hblocks, hlayout, hwired, hcur, -, -, -⟩ := h.push_cases op
  refine ⟨?_, ?_, ?_⟩
  · rw [hblocks]
    exact hlayout.push hcur he
  · rw [hblocks]
    refine ⟨fun x y => ?_, ?_⟩
    · rw [joined_extend hlayout hcur, hwired.adj_iff]
      simp [hop]
    · rw [filterMap_awaited_extend before hcur, hwired.entries_eq,
        awaited_eq_none (by rw [Block.target?_extend, hop])]
      simp
  · intro x hx
    have hlast : (b.push op).graph.blocks.getLast? = some x := by
      rw [Builder.graph, List.getLast?_reverse, hx]
    rw [hblocks, List.getLast?_concat, Option.some.injEq] at hlast
    rw [← hlast, Block.target?_extend, hop]

theorem openBlock_none (hlayout : Layout done b.graph.blocks)
    (hwired : Wired b.graph.blocks b.flow b.pending) : (b.openBlock none).Inv done where
  layout := layout_openBlock_none hlayout
  wired := wired_openBlock_none hlayout hwired
  idle := fun _ => target?_of_head?_openBlock

theorem addJump (h : b.Inv done) {e : Event} {c : Condition} {l : Label}
    (he : e.opcode? = some (.jump c l)) : (b.addJump c l).Inv (done ++ [e]) := by
  obtain ⟨before, cur, hblocks, hlayout, hwired, hcur, hid, hlabels, hmem⟩ :=
    h.push_cases (.jump c l)
  have hlayout' := hlayout.push hcur he
  have hentries := filterMap_awaited_extend before hcur (bodies (before ++ [cur])).length
    (.jump c l)
  rw [← hwired.entries_eq] at hentries
  unfold Builder.addJump
  rcases hl : b.findLabel? l with _ | d
  · -- a jump forward: no edge yet, and the block waits for the label
    have hnew : l ∉ labelsOf (before ++ [cur]) := hlabels ▸ findLabel?_eq_none hl
    have hawait : awaited (labelsOf (before ++ [cur]))
        (cur.extend (bodies (before ++ [cur])).length (.jump c l)) = some (l, cur.id) :=
      awaited_eq_some.mpr ⟨Block.target?_extend _ _ _, hnew, rfl⟩
    refine openBlock_none (b := { b.push (.jump c l) with
      pending := (b.push (.jump c l)).pending.record l b.currentId }) ?_ ⟨fun x y => ?_, ?_⟩
    · exact hblocks ▸ hlayout'
    · change (b.push (.jump c l)).flow.Adj x y ↔ Joined (b.push (.jump c l)).graph.blocks x y
      rw [hblocks, joined_extend hlayout hcur, hwired.adj_iff]
      constructor
      · exact Or.inl
      · rintro (hxy | ⟨-, m, hm, z, hz, hzl, -⟩)
        · exact hxy
        · rw [← hm, Opcode.target?] at hzl
          exact absurd (mem_labelsOf.mpr ⟨z, hz, hzl⟩) hnew
    · change (b.push (.jump c l)).pending.entries ++ [(l, b.currentId)]
        = (b.push (.jump c l)).graph.blocks.filterMap
          (awaited (labelsOf (b.push (.jump c l)).graph.blocks))
      rw [hblocks, hentries, hawait, hid]
      rfl
  · -- a jump back: one block carries the label, and it is the one that was found
    obtain ⟨z, hz, hzl, hzd⟩ := findLabel?_eq_some hl
    have hz' := hmem z hz
    have hold : l ∈ labelsOf (before ++ [cur]) := mem_labelsOf.mpr ⟨z, hz', hzl⟩
    have hawait : awaited (labelsOf (before ++ [cur]))
        (cur.extend (bodies (before ++ [cur])).length (.jump c l)) = none := by
      simp [awaited, Block.target?_extend, Opcode.target?, hold]
    refine openBlock_none (b := { b.push (.jump c l) with
      flow := (b.push (.jump c l)).flow.link b.currentId d }) ?_ ⟨fun x y => ?_, ?_⟩
    · exact hblocks ▸ hlayout'
    · change ((b.push (.jump c l)).flow.link b.currentId d).Adj x y ↔
        Joined (b.push (.jump c l)).graph.blocks x y
      rw [hblocks, joined_extend hlayout hcur, Digraph.adj_link, hwired.adj_iff, ← hid]
      constructor
      · rintro (⟨rfl, rfl⟩ | hxy)
        · exact Or.inr ⟨rfl, l, rfl, z, hz', hzl, hzd⟩
        · exact Or.inl hxy
      · rintro (hxy | ⟨rfl, m, hm, z', hz'', hzl', rfl⟩)
        · exact Or.inr hxy
        · rw [← hm, Opcode.target?] at hzl'
          rw [Layout.eq_of_label_eq hlayout.labels hz'' hz' hzl' hzl, hzd]
          exact Or.inl ⟨rfl, rfl⟩
    · change (b.push (.jump c l)).pending.entries
        = (b.push (.jump c l)).graph.blocks.filterMap
          (awaited (labelsOf (b.push (.jump c l)).graph.blocks))
      rw [hblocks, hentries, hawait]
      simp

theorem mem_waitingOn (h : b.Inv done) {l : Label} (hl : l ∉ labelsOf b.graph.blocks) {x : Nat} :
    x ∈ b.pending.waitingOn l ↔ ∃ a ∈ b.graph.blocks, a.target? = some l ∧ a.id = x := by
  unfold PendingJumps.waitingOn
  rw [h.wired.entries_eq, List.mem_map]
  constructor
  · rintro ⟨⟨m, n⟩, hmn, rfl⟩
    obtain ⟨hmem, hm⟩ := List.mem_filter.mp hmn
    obtain ⟨a, ha, hawait⟩ := List.mem_filterMap.mp hmem
    obtain ⟨htarget, -, hid⟩ := awaited_eq_some.mp hawait
    have hml : m = l := by simpa using hm
    exact ⟨a, ha, hml ▸ htarget, hid⟩
  · rintro ⟨a, ha, htarget, rfl⟩
    refine ⟨(l, a.id), List.mem_filter.mpr ⟨List.mem_filterMap.mpr ⟨a, ha, ?_⟩, by simp⟩, rfl⟩
    exact awaited_eq_some.mpr ⟨htarget, hl, rfl⟩

theorem addLabel (h : b.Inv done) {l : Label} (hb : b.addLabel l = .ok b') :
    b'.Inv (done ++ [.label l]) := by
  unfold Builder.addLabel at hb
  split_ifs at hb with hfound
  have hnew : l ∉ labelsOf b.graph.blocks := findLabel?_eq_none (by simpa using hfound)
  simp only [Except.ok.injEq] at hb
  subst hb
  have hblocks := b.blocks_openBlock (some l)
  refine ⟨?_, ⟨fun x y => ?_, ?_⟩, ?_⟩
  · change Layout _ (b.openBlock (some l)).graph.blocks
    rw [hblocks]
    exact h.layout.grow (some l) (by simpa using hnew)
  · change ((b.pending.waitingOn l).foldl (fun flow a => flow.link a b.nextBlock)
      (b.openBlock (some l)).flow).Adj x y ↔ Joined (b.openBlock (some l)).graph.blocks x y
    have hfold : ((b.pending.waitingOn l).map fun a => (a, b.graph.blocks.length)).foldl
          (fun flow e => flow.link e.1 e.2) (b.openBlock (some l)).flow
        = (b.pending.waitingOn l).foldl (fun flow a => flow.link a b.graph.blocks.length)
          (b.openBlock (some l)).flow := List.foldl_map
    rw [hblocks, b.nextBlock_eq, ← hfold, Digraph.adj_foldl_link, adj_openBlock h.layout,
      joined_grow h.layout, h.wired.adj_iff, List.mem_map]
    constructor
    · rintro (⟨a, ha, hxy⟩ | hxy | ⟨rfl, a, ha, hx, hid, hgoto⟩)
      · obtain ⟨rfl, rfl⟩ := Prod.mk.inj hxy
        obtain ⟨z, hz, hzl, hzid⟩ := (h.mem_waitingOn hnew).mp ha
        exact Or.inr ⟨rfl, z, hz, hzid, Or.inr ⟨l, hzl, rfl⟩⟩
      · exact Or.inl hxy
      · exact Or.inr ⟨rfl, a, ha, hx, Or.inl ⟨hid, hgoto⟩⟩
    · rintro (hxy | ⟨rfl, a, ha, rfl, ⟨hid, hgoto⟩ | ⟨m, hm, hml⟩⟩)
      · exact Or.inr (Or.inl hxy)
      · exact Or.inr (Or.inr ⟨rfl, a, ha, rfl, hid, hgoto⟩)
      · obtain rfl : l = m := by simpa using hml
        exact Or.inl ⟨a.id, (h.mem_waitingOn hnew).mpr ⟨a, ha, hm, rfl⟩, rfl⟩
  · change b.pending.entries.filter (fun e => e.1 ≠ l)
      = (b.openBlock (some l)).graph.blocks.filterMap
        (awaited (labelsOf (b.openBlock (some l)).graph.blocks))
    have hlabels : labelsOf (b.graph.blocks ++ [⟨b.graph.blocks.length, some l, []⟩])
        = labelsOf b.graph.blocks ++ [l] := labelsOf_append _ _
    rw [hblocks, hlabels, h.wired.entries_eq, List.filter_filterMap, List.filterMap_append,
      List.filterMap_cons, awaited_eq_none (Block.target?_of_body_eq_nil rfl)]
    simp only [List.filterMap_nil, List.append_nil, awaited_snoc]
  · exact fun x hx => target?_of_head?_openBlock hx

theorem feed (h : b.Inv done) {e : Event} (hb : b.feed e = .ok b') : b'.Inv (done ++ [e]) := by
  cases e with
  | label l => exact h.addLabel hb
  | jump c l =>
    simp only [Builder.feed, Except.ok.injEq] at hb
    subst hb
    exact h.addJump rfl
  | emit op =>
    simp only [Builder.feed, Except.ok.injEq] at hb
    subst hb
    cases op with
    | jump c l => exact h.addJump rfl
    | load s => exact h.push rfl rfl
    | store s => exact h.push rfl rfl
    | other m operands => exact h.push rfl rfl

theorem feedAll : ∀ (es : List Event) {done : List Event} {b : Builder}, b.Inv done →
    b.feedAll es = .ok b' → b'.Inv (done ++ es)
  | [], done, b, h, hb => by
    simp only [Builder.feedAll, Except.ok.injEq] at hb
    rw [List.append_nil, ← hb]
    exact h
  | e :: es, done, b, h, hb => by
    simp only [Builder.feedAll] at hb
    split at hb
    · rename_i b₁ hb₁
      have ih := feedAll es (h.feed hb₁) hb
      rwa [List.append_assoc, List.singleton_append] at ih
    · simp at hb

end Inv

end Builder

theorem BlockGraph.build_eq_ok {head : Head} {events : List Event} {g : BlockGraph}
    (h : BlockGraph.build head events = .ok g) : ∃ b : Builder,
      (Builder.start head).feedAll events = .ok b ∧ b.pending.entries = []
        ∧ g = b.graph.purge := by
  unfold BlockGraph.build at h
  split at h
  · rename_i b hb
    unfold Builder.finish at h
    split_ifs at h with hpending
    simp only [Except.ok.injEq] at h
    exact ⟨b, hb, by simpa [PendingJumps.isEmpty] using hpending, h.symm⟩
  · simp at h

/-- A finished graph is what is left of a builder that has seen all the events. -/
theorem BlockGraph.exists_of_build {head : Head} {events : List Event} {g : BlockGraph}
    (h : BlockGraph.build head events = .ok g) : ∃ b : Builder,
      b.Inv events ∧ b.pending.entries = [] ∧ g = b.graph.purge := by
  obtain ⟨b, hfeed, hpending, hg⟩ := BlockGraph.build_eq_ok h
  have hinv := (Builder.Inv.start head).feedAll events hfeed
  exact ⟨b, by simpa using hinv, hpending, hg⟩

end SlotColoring
