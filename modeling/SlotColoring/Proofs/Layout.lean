import Mathlib.Data.List.Nodup
import SlotColoring.BlockGraph.Builder

/-!
# How blocks lie in the code

The blocks of a builder, in program order, cut the emitted instructions into pieces: their ids
count them, their bodies put together are the code, a jump stands only at the end of a block, and
each block that carries a label starts where the events place that label (`Layout`).  Opening a
block and putting an instruction into the newest one keep that (`Layout.grow`, `Layout.push`).
-/

namespace SlotColoring

/-- The instructions that events emit, in order. -/
def emitted (events : List Event) : List Opcode := events.filterMap Event.opcode?

/-- The label stands among the events with `n` instructions before it. -/
def PlacedAt (events : List Event) (l : Label) (n : Nat) : Prop :=
  ∃ before after, events = before ++ .label l :: after ∧ (emitted before).length = n

/-- The instructions of some blocks, in order. -/
def bodies (bs : List Block) : List Instruction := bs.flatMap Block.body

/-- The block stands among the blocks with `n` instructions before it. -/
def StartsAt (bs : List Block) (x : Block) (n : Nat) : Prop :=
  ∃ before after, bs = before ++ x :: after ∧ (bodies before).length = n

/-- The labels that some blocks carry. -/
def labelsOf (bs : List Block) : List Label := bs.filterMap Block.label

/-- Only a jump keeps control from passing on. -/
theorem Opcode.isGoto_of_target?_eq_none {op : Opcode} (h : op.target? = none) :
    op.isGoto = false := by
  cases op with
  | jump c l => simp [target?] at h
  | load s => rfl
  | store s => rfl
  | other m operands => rfl

namespace Block

/-- The label that a jump at the end of the block names. -/
def target? (x : Block) : Option Label := x.lastOpcode?.bind Opcode.target?

/-- The block with an instruction more. -/
def extend (x : Block) (n : Nat) (op : Opcode) : Block :=
  { x with body := x.body ++ [⟨n, x.id, op⟩] }

theorem lastOpcode?_extend (x : Block) (n : Nat) (op : Opcode) :
    (x.extend n op).lastOpcode? = some op := by
  simp [lastOpcode?, extend]

theorem target?_extend (x : Block) (n : Nat) (op : Opcode) :
    (x.extend n op).target? = op.target? := by
  simp [target?, lastOpcode?_extend]

theorem lastOpcode?_of_body_eq_nil {x : Block} (h : x.body = []) : x.lastOpcode? = none := by
  simp [lastOpcode?, h]

theorem target?_of_body_eq_nil {x : Block} (h : x.body = []) : x.target? = none := by
  simp [target?, lastOpcode?_of_body_eq_nil h]

theorem endsInGoto_of_body_eq_nil {x : Block} (h : x.body = []) : x.endsInGoto = false := by
  simp [endsInGoto, lastOpcode?_of_body_eq_nil h]

end Block

section Splits

theorem emitted_append (es fs : List Event) : emitted (es ++ fs) = emitted es ++ emitted fs :=
  List.filterMap_append

theorem bodies_append (bs cs : List Block) : bodies (bs ++ cs) = bodies bs ++ bodies cs :=
  List.flatMap_append

theorem bodies_singleton (x : Block) : bodies [x] = x.body := by
  simp [bodies]

theorem labelsOf_append (bs cs : List Block) : labelsOf (bs ++ cs) = labelsOf bs ++ labelsOf cs :=
  List.filterMap_append

theorem mem_labelsOf {bs : List Block} {l : Label} :
    l ∈ labelsOf bs ↔ ∃ x ∈ bs, x.label = some l :=
  List.mem_filterMap

theorem exists_split_snoc {α : Type*} {l : List α} {x y : α} {P : List α → Prop} :
    (∃ before after, l ++ [y] = before ++ x :: after ∧ P before) ↔
      (∃ before after, l = before ++ x :: after ∧ P before) ∨ (x = y ∧ P l) := by
  constructor
  · rintro ⟨before, after, h, hP⟩
    rcases List.eq_nil_or_concat after with rfl | ⟨rest, z, rfl⟩
    · obtain ⟨rfl, hxy⟩ := List.append_inj' h rfl
      exact Or.inr ⟨(List.singleton_inj.mp hxy).symm, hP⟩
    · rw [List.concat_eq_append, ← List.cons_append, ← List.append_assoc] at h
      obtain ⟨rfl, -⟩ := List.append_inj' h rfl
      exact Or.inl ⟨before, rest, rfl, hP⟩
  · rintro (⟨before, after, rfl, hP⟩ | ⟨rfl, hP⟩)
    · exact ⟨before, after ++ [y], by simp, hP⟩
    · exact ⟨l, [], rfl, hP⟩

theorem placedAt_snoc {es : List Event} {e : Event} {l : Label} {n : Nat} :
    PlacedAt (es ++ [e]) l n ↔
      PlacedAt es l n ∨ (.label l = e ∧ (emitted es).length = n) :=
  exists_split_snoc

theorem startsAt_snoc {bs : List Block} {x y : Block} {n : Nat} :
    StartsAt (bs ++ [y]) x n ↔ StartsAt bs x n ∨ (x = y ∧ (bodies bs).length = n) :=
  exists_split_snoc

theorem StartsAt.mem {bs : List Block} {x : Block} {n : Nat} (h : StartsAt bs x n) : x ∈ bs := by
  obtain ⟨before, after, rfl, -⟩ := h
  simp

end Splits

/-- The blocks are the pieces of the code that the events emit. -/
structure Layout (done : List Event) (bs : List Block) : Prop where
  ids : bs.map Block.id = List.range bs.length
  opcodes : (bodies bs).map Instruction.opcode = emitted done
  instIds : (bodies bs).map Instruction.id = List.range (bodies bs).length
  owner : ∀ x ∈ bs, ∀ i ∈ x.body, i.block = x.id
  closed : ∀ x ∈ bs, ∀ i ∈ x.body.dropLast, i.opcode.target? = none
  placed : ∀ l n, PlacedAt done l n ↔ ∃ x, StartsAt bs x n ∧ x.label = some l
  labels : (labelsOf bs).Nodup

namespace Layout

variable {done : List Event} {bs : List Block}

theorem nil : Layout [] [] where
  ids := rfl
  opcodes := rfl
  instIds := rfl
  owner := by simp
  closed := by simp
  placed := by simp [PlacedAt, StartsAt]
  labels := List.nodup_nil

theorem length_bodies (h : Layout done bs) : (bodies bs).length = (emitted done).length := by
  rw [← h.opcodes, List.length_map]

theorem id_lt (h : Layout done bs) {x : Block} (hx : x ∈ bs) : x.id < bs.length := by
  have hid : x.id ∈ bs.map Block.id := List.mem_map_of_mem hx
  rwa [h.ids, List.mem_range] at hid

theorem nodup_ids (h : Layout done bs) : (bs.map Block.id).Nodup := h.ids ▸ List.nodup_range

theorem eq_of_id_eq (h : Layout done bs) {x y : Block} (hx : x ∈ bs) (hy : y ∈ bs)
    (hid : x.id = y.id) : x = y :=
  List.inj_on_of_nodup_map h.nodup_ids hx hy hid

theorem eq_of_label_eq {l : Label} : ∀ {bs : List Block}, (labelsOf bs).Nodup →
    ∀ {x y : Block}, x ∈ bs → y ∈ bs → x.label = some l → y.label = some l → x = y
  | [], _, _, _, hx, _, _, _ => absurd hx List.not_mem_nil
  | b :: bs, h, x, y, hx, hy, hxl, hyl => by
    have hbs : (labelsOf bs).Nodup := h.sublist ((List.sublist_cons_self b bs).filterMap _)
    -- the head's label is not met again
    have hhead : b.label = some l → l ∉ labelsOf bs := by
      intro hb
      have hcons : labelsOf (b :: bs) = l :: labelsOf bs := by simp [labelsOf, hb]
      exact (List.nodup_cons.mp (hcons ▸ h)).1
    rcases List.mem_cons.mp hx with rfl | hx' <;> rcases List.mem_cons.mp hy with rfl | hy'
    · rfl
    · exact absurd (mem_labelsOf.mpr ⟨y, hy', hyl⟩) (hhead hxl)
    · exact absurd (mem_labelsOf.mpr ⟨x, hx', hxl⟩) (hhead hyl)
    · exact eq_of_label_eq hbs hx' hy' hxl hyl

/-- Opening a block at the end, at a label that no block carries yet or at none. -/
theorem grow (h : Layout done bs) (label : Option Label) (hnew : ∀ l ∈ label, l ∉ labelsOf bs) :
    Layout (done ++ label.toList.map .label) (bs ++ [⟨bs.length, label, []⟩]) := by
  have hbodies : bodies (bs ++ [⟨bs.length, label, []⟩]) = bodies bs := by
    simp [bodies_append, bodies_singleton]
  have hemitted : emitted (done ++ label.toList.map .label) = emitted done := by
    cases label <;> simp [emitted, Event.opcode?]
  refine ⟨?_, ?_, ?_, ?_, ?_, ?_, ?_⟩
  · rw [List.map_append, h.ids, List.length_append, List.length_singleton, List.range_succ]
    rfl
  · rw [hbodies, hemitted, h.opcodes]
  · rw [hbodies, h.instIds]
  · intro x hx
    rcases List.mem_append.mp hx with hx | hx
    · exact h.owner x hx
    · simp [List.mem_singleton.mp hx]
  · intro x hx
    rcases List.mem_append.mp hx with hx | hx
    · exact h.closed x hx
    · simp [List.mem_singleton.mp hx]
  · intro l n
    have hold := h.placed l n
    have hplaced : PlacedAt (done ++ label.toList.map .label) l n ↔
        PlacedAt done l n ∨ (label = some l ∧ (emitted done).length = n) := by
      cases label with
      | none => simp
      | some m =>
        rw [Option.toList_some, List.map_singleton, placedAt_snoc, Event.label.injEq,
          Option.some.injEq, eq_comm]
    rw [hplaced, hold, ← h.length_bodies]
    constructor
    · rintro (⟨x, hx, hxl⟩ | ⟨hl, hn⟩)
      · exact ⟨x, startsAt_snoc.mpr (Or.inl hx), hxl⟩
      · exact ⟨_, startsAt_snoc.mpr (Or.inr ⟨rfl, hn⟩), hl⟩
    · rintro ⟨x, hx, hxl⟩
      rcases startsAt_snoc.mp hx with hx | ⟨rfl, hn⟩
      · exact Or.inl ⟨x, hx, hxl⟩
      · exact Or.inr ⟨hxl, hn⟩
  · rw [labelsOf_append, List.nodup_append]
    refine ⟨h.labels, ?_, ?_⟩
    · cases label <;> simp [labelsOf]
    · intro l hl m hm
      obtain ⟨x, hx, hxm⟩ := mem_labelsOf.mp hm
      rw [List.mem_singleton.mp hx] at hxm
      rintro rfl
      exact hnew l hxm hl

/-- Putting an instruction into the newest block, if no jump has closed it. -/
theorem push {before : List Block} {cur : Block} (h : Layout done (before ++ [cur]))
    (hcur : cur.target? = none) {e : Event} {op : Opcode} (he : e.opcode? = some op) :
    Layout (done ++ [e])
      (before ++ [cur.extend (bodies (before ++ [cur])).length op]) := by
  have hbodies : ∀ n, bodies (before ++ [cur.extend n op])
      = bodies (before ++ [cur]) ++ [⟨n, cur.id, op⟩] := by
    intro n
    simp [bodies_append, bodies_singleton, Block.extend]
  have hmem : ∀ {n : Nat} {x : Block}, x ∈ before ++ [cur.extend n op] →
      x ∈ before ∨ x = cur.extend n op := by
    intro n x hx
    rwa [List.mem_append, List.mem_singleton] at hx
  have hcurmem : cur ∈ before ++ [cur] := by simp
  refine ⟨?_, ?_, ?_, ?_, ?_, ?_, ?_⟩
  · have hids := h.ids
    rw [List.map_append, List.length_append] at hids ⊢
    exact hids
  · rw [hbodies, List.map_append, h.opcodes, emitted_append]
    simp [emitted, he]
  · rw [hbodies, List.map_append, h.instIds, List.length_append, List.length_singleton,
      List.range_succ]
    rfl
  · intro x hx
    rcases hmem hx with hx | rfl
    · exact h.owner x (List.mem_append_left _ hx)
    · intro i hi
      rcases List.mem_append.mp hi with hi | hi
      · exact h.owner cur hcurmem i hi
      · rw [List.mem_singleton.mp hi]
        rfl
  · intro x hx
    rcases hmem hx with hx | rfl
    · exact h.closed x (List.mem_append_left _ hx)
    · -- all that stood in the block before is now inside it, its last instruction too
      intro i hi
      rw [Block.extend, List.dropLast_concat] at hi
      rcases List.eq_nil_or_concat cur.body with hb | ⟨body, last, hb⟩
      · simp [hb] at hi
      · rw [List.concat_eq_append] at hb
        rw [hb, List.mem_append, List.mem_singleton] at hi
        rcases hi with hi | rfl
        · exact h.closed cur hcurmem i (by rwa [hb, List.dropLast_concat])
        · simpa [Block.target?, Block.lastOpcode?, hb] using hcur
  · intro l n
    have hold := h.placed l n
    have hne : Event.label l ≠ e := by
      rintro rfl
      simp [Event.opcode?] at he
    rw [placedAt_snoc, hold]
    constructor
    · rintro (⟨x, hx, hxl⟩ | ⟨hl, -⟩)
      · rcases startsAt_snoc.mp hx with hx | ⟨rfl, hn⟩
        · exact ⟨x, startsAt_snoc.mpr (Or.inl hx), hxl⟩
        · exact ⟨_, startsAt_snoc.mpr (Or.inr ⟨rfl, hn⟩), hxl⟩
      · exact absurd hl hne
    · rintro ⟨x, hx, hxl⟩
      rcases startsAt_snoc.mp hx with hx | ⟨rfl, hn⟩
      · exact Or.inl ⟨x, startsAt_snoc.mpr (Or.inl hx), hxl⟩
      · exact Or.inl ⟨cur, startsAt_snoc.mpr (Or.inr ⟨rfl, hn⟩), hxl⟩
  · have hlabels := h.labels
    rw [labelsOf_append] at hlabels ⊢
    exact hlabels

end Layout

end SlotColoring
