import SlotColoring.Proofs.BlockEdges
import SlotColoring.Proofs.Bytecode

/-!
# Running over blocks and running over events

The instructions that events emit can be run without a graph: control proceeds to the next one, or
branches to the place of a label (`Moves`).  A run over the blocks of the finished graph does the
same, with the passages between blocks as steps in between, and gets to `return` exactly where the
run over the events does (`Finished.returns_iff`).
-/

namespace SlotColoring

open Relation (ReflTransGen)

/-- One instruction is run, the `i`-th in its frame. -/
inductive Moves (events : List Event) : Nat × Frame → Nat × Frame → Prop
  | proceed {i : Nat} {op : Opcode} {f f' : Frame} (opcode : (emitted events)[i]? = some op)
      (exec : op.exec f = .proceed f') : Moves events (i, f) (i + 1, f')
  | branch {i j : Nat} {op : Opcode} {l : Label} {f f' : Frame}
      (opcode : (emitted events)[i]? = some op) (exec : op.exec f = .branch l f')
      (place : PlacedAt events l j) : Moves events (i, f) (j, f')

theorem Moves.index_lt {events : List Event} {c d : Nat × Frame} (h : Moves events c d) :
    c.1 < (emitted events).length := by
  cases h with
  | proceed opcode _ => exact (List.getElem?_eq_some_iff.mp opcode).1
  | branch opcode _ _ => exact (List.getElem?_eq_some_iff.mp opcode).1

/-- After `k` instructions of the block there is one more, or control passes on from its end. -/
def Block.GoesOn (x : Block) (k : Nat) : Prop :=
  k < x.body.length ∨ (k = x.body.length ∧ x.endsInGoto = false)

theorem Block.goesOn_zero (x : Block) : x.GoesOn 0 := by
  rcases Nat.eq_zero_or_pos x.body.length with hzero | hpos
  · have hgoto := endsInGoto_of_body_eq_nil (List.eq_nil_of_length_eq_zero hzero)
    exact Or.inr ⟨hzero.symm, hgoto⟩
  · exact Or.inl hpos

/-- The activation has come to the `i`-th instruction, or to the end of a block before it. -/
def Stands (g : BlockGraph) (a : Activation) (i : Nat) : Prop :=
  ∃ x n, StartsAt g.blocks x n ∧ a.block = x.id ∧ i = n + a.done ∧ x.GoesOn a.done

variable {events : List Event} {g : BlockGraph} {x : Block} {n : Nat}

theorem stands_start (hx : StartsAt g.blocks x n) (f : Frame) : Stands g ⟨x.id, 0, f⟩ n :=
  ⟨x, n, hx, rfl, rfl, x.goesOn_zero⟩

section Lookup

theorem idAfter_split {bs : List Block} (hids : (bs.map Block.id).Nodup) {before : List Block}
    {c : Block} {after : List Block} (hbs : bs = before ++ x :: c :: after) :
    BlockGraph.idAfter x.id bs = some c.id := by
  induction before generalizing bs with
  | nil => simp [hbs, BlockGraph.idAfter]
  | cons y before ih =>
    have hne : y.id ≠ x.id := by
      rw [hbs] at hids
      intro hid
      simp [hid] at hids
    obtain ⟨z, rest, hrest⟩ : ∃ z rest, before ++ x :: c :: after = z :: rest :=
      List.exists_cons_of_ne_nil (by simp)
    rw [List.cons_append, hrest] at hbs
    rw [hbs, List.map_cons, List.nodup_cons] at hids
    rw [hbs, BlockGraph.idAfter, if_neg hne]
    exact ih hids.2 hrest.symm

theorem exists_of_idAfter {id d : Nat} : ∀ {bs : List Block},
    BlockGraph.idAfter id bs = some d → ∃ before x c after,
      bs = before ++ x :: c :: after ∧ x.id = id ∧ c.id = d
  | [], h => by simp [BlockGraph.idAfter] at h
  | [y], h => by simp [BlockGraph.idAfter] at h
  | y :: z :: bs, h => by
    rw [BlockGraph.idAfter] at h
    split_ifs at h with hid
    · exact ⟨[], y, z, bs, rfl, hid, Option.some.inj h⟩
    · obtain ⟨before, x, c, after, hbs, hx, hc⟩ := exists_of_idAfter h
      exact ⟨y :: before, x, c, after, by rw [hbs, List.cons_append], hx, hc⟩

namespace Finished

theorem findLabel?_eq (h : Finished events g) {l : Label} (hx : x ∈ g.blocks)
    (hl : x.label = some l) : g.findLabel? l = some x.id := by
  unfold BlockGraph.findLabel?
  rcases hfind : g.blocks.find? (fun b => b.label == some l) with _ | y
  · exact absurd hl (by simpa using List.find?_eq_none.mp hfind x hx)
  · have hyl : y.label = some l := by simpa using List.find?_some hfind
    rw [hfind, Layout.eq_of_label_eq h.labels (List.mem_of_find?_eq_some hfind) hx hyl hl]
    rfl

theorem placedAt_of_findLabel? (h : Finished events g) {l : Label} {d : Nat}
    (hd : g.findLabel? l = some d) :
    ∃ y j, StartsAt g.blocks y j ∧ y.id = d ∧ PlacedAt events l j := by
  obtain ⟨y, hfind, rfl⟩ := Option.map_eq_some_iff.mp hd
  have hyl : y.label = some l := by simpa using List.find?_some hfind
  obtain ⟨before, after, hbs⟩ := List.append_of_mem (List.mem_of_find?_eq_some hfind)
  have hy : StartsAt g.blocks y (bodies before).length := ⟨before, after, hbs, rfl⟩
  exact ⟨y, _, hy, rfl, (h.placed l _).mpr ⟨y, hy, hyl⟩⟩

theorem opcodeAt?_eq (h : Finished events g) (hx : StartsAt g.blocks x n) (k : Nat) (f : Frame) :
    g.opcodeAt? ⟨x.id, k, f⟩ = x.body[k]?.map Instruction.opcode := by
  rw [BlockGraph.opcodeAt?, BlockGraph.block?_eq_some h.ids hx.mem, Option.bind_some]

theorem opcode_eq (h : Finished events g) (hx : StartsAt g.blocks x n) {k : Nat}
    {ins : Instruction} (hk : x.body[k]? = some ins) :
    (emitted events)[n + k]? = some ins.opcode := by
  obtain ⟨hlt, hget⟩ := List.getElem?_eq_some_iff.mp hk
  have hbody : x.body = x.body.take k ++ ins :: x.body.drop (k + 1) := by
    rw [← hget, ← List.drop_eq_getElem_cons hlt, List.take_append_drop]
  have hbodies := hx.getElem?_bodies hbody
  rw [List.length_take_of_le (Nat.le_of_lt hlt)] at hbodies
  rw [← h.opcodes, List.getElem?_map, hbodies, Option.map_some]

theorem lastOpcode?_eq {k : Nat} {ins : Instruction} (hk : x.body[k]? = some ins)
    (hlast : k + 1 = x.body.length) : x.lastOpcode? = some ins.opcode := by
  rw [Block.lastOpcode?, List.getLast?_eq_getElem?, ← hlast, Nat.add_sub_cancel, hk]
  rfl

/-- A jump is the last of its block. -/
theorem target?_eq (h : Finished events g) (hx : x ∈ g.blocks) {k : Nat} {ins : Instruction}
    (hk : x.body[k]? = some ins) {l : Label} (hl : ins.opcode.target? = some l) :
    x.target? = some l := by
  obtain ⟨hlt, hget⟩ := List.getElem?_eq_some_iff.mp hk
  have hlast : k + 1 = x.body.length := by
    by_contra hne
    have hinside : ins ∈ x.body.dropLast := by
      rw [List.mem_iff_getElem?]
      exact ⟨k, by rw [List.getElem?_dropLast, if_pos (by omega), hk]⟩
    simp [h.closed x hx ins hinside] at hl
  rw [Block.target?, lastOpcode?_eq hk hlast]
  exact hl

theorem startsAt_next (h : Finished events g) (hx : StartsAt g.blocks x n) {c : Block}
    (hnext : IsNext g.blocks x c) : StartsAt g.blocks c (n + x.body.length) := by
  obtain ⟨before, after, hbs, rfl⟩ := hx
  obtain ⟨before', after', hbs'⟩ := hnext
  -- a block stands at one place only
  have hlength : before.length = before'.length := by
    have hx : g.blocks[before.length]? = some x := by simp [hbs]
    have hx' : g.blocks[before'.length]? = some x := by simp [hbs']
    have hlt : before.length < g.blocks.length := by simp [hbs]
    exact (List.getElem?_inj hlt h.ids.of_map).mp (hx.trans hx'.symm)
  obtain ⟨rfl, -⟩ := List.append_inj (hbs.symm.trans hbs') hlength
  exact ⟨before ++ [x], after', by simp [hbs'], by simp [bodies_append, bodies_singleton]⟩

end Finished

end Lookup

namespace Finished

variable {a b : Activation} {i j : Nat} {f f' : Frame}

/-- What the instruction is at which an activation stands inside its block. -/
theorem opcode_of_opcodeAt? (h : Finished events g) {op : Opcode} (ha : Stands g a i)
    (hop : g.opcodeAt? a = some op) : (emitted events)[i]? = some op := by
  obtain ⟨x, n, hx, hid, rfl, -⟩ := ha
  obtain ⟨id, k, f⟩ := a
  obtain rfl := hid
  rw [h.opcodeAt?_eq hx] at hop
  obtain ⟨ins, hins, rfl⟩ := Option.map_eq_some_iff.mp hop
  exact h.opcode_eq hx hins

theorem stands_proceed (hx : StartsAt g.blocks x n) {k : Nat} {ins : Instruction}
    (hk : x.body[k]? = some ins) (hexec : ins.opcode.exec f = .proceed f') :
    Stands g ⟨x.id, k + 1, f'⟩ (n + k + 1) := by
  obtain ⟨hlt, -⟩ := List.getElem?_eq_some_iff.mp hk
  refine ⟨x, n, hx, rfl, rfl, ?_⟩
  rcases Nat.lt_or_eq_of_le hlt with hinside | hlast
  · exact Or.inl hinside
  · have hgoto := Opcode.isGoto_of_proceed hexec
    exact Or.inr ⟨hlast, by rw [Block.endsInGoto, lastOpcode?_eq hk hlast, Option.any_some, hgoto]⟩

/-- A step over blocks runs the instruction that the activation stands at, or comes nearer to it. -/
theorem step_cases (h : Finished events g) (ha : Stands g a i) (hstep : g.step a = some b) :
    (Stands g b i ∧ b.frame = a.frame)
      ∨ ∃ j, Stands g b j ∧ Moves events (i, a.frame) (j, b.frame) := by
  obtain ⟨x, n, hx, hid, rfl, hdone⟩ := ha
  obtain ⟨id, k, f⟩ := a
  obtain rfl : id = x.id := hid
  rw [BlockGraph.step, h.opcodeAt?_eq hx] at hstep
  rcases hins : x.body[k]? with _ | ins
  · -- at the end of the block
    left
    obtain rfl : k = x.body.length := by
      have hle := List.getElem?_eq_none_iff.mp hins
      rcases hdone with hlt | ⟨hk, -⟩
      · exact absurd hlt (Nat.not_lt.mpr hle)
      · exact hk
    rw [hins] at hstep
    obtain ⟨d, hd, rfl⟩ := Option.map_eq_some_iff.mp hstep
    obtain ⟨hd, -⟩ := Option.filter_eq_some_iff.mp hd
    obtain ⟨before, y, c, after, hbs, hy, rfl⟩ := exists_of_idAfter hd
    obtain rfl := h.eq_of_id_eq (by simp [hbs]) hx.mem hy
    exact ⟨stands_start (h.startsAt_next hx ⟨before, after, hbs⟩) f, rfl⟩
  · rw [hins] at hstep
    have hop := h.opcode_eq hx hins
    right
    simp only [Option.map_some] at hstep
    split at hstep
    · rename_i f' hexec
      obtain rfl := Option.some.inj hstep
      exact ⟨n + k + 1, stands_proceed hx hins hexec, .proceed hop hexec⟩
    · rename_i l f' hexec
      obtain ⟨d, hd, rfl⟩ := Option.map_eq_some_iff.mp hstep
      obtain ⟨hd, -⟩ := Option.filter_eq_some_iff.mp hd
      obtain ⟨y, j, hy, rfl, hl⟩ := h.placedAt_of_findLabel? hd
      exact ⟨j, stands_start hy f', .branch hop hexec hl⟩
    · simp at hstep
    · simp at hstep

/-- Inside a block, the step runs the instruction that the activation stands at. -/
theorem step_of_moves (h : Finished events g) (ha : Stands g a i)
    (hop : g.opcodeAt? a = (emitted events)[i]?) (hmove : Moves events (i, a.frame) (j, f')) :
    ∃ b, g.step a = some b ∧ Stands g b j ∧ b.frame = f' := by
  obtain ⟨x, n, hx, hid, rfl, hdone⟩ := ha
  obtain ⟨id, k, f⟩ := a
  obtain rfl : id = x.id := hid
  have hat := h.opcodeAt?_eq hx k f
  cases hmove with
  | proceed opcode exec =>
    rw [opcode] at hop
    obtain ⟨ins, hins, rfl⟩ := Option.map_eq_some_iff.mp (hat.symm.trans hop)
    refine ⟨⟨x.id, k + 1, f'⟩, ?_, stands_proceed hx hins exec, rfl⟩
    simp only [BlockGraph.step, hop, exec]
  | branch opcode exec place =>
    rw [opcode] at hop
    obtain ⟨ins, hins, rfl⟩ := Option.map_eq_some_iff.mp (hat.symm.trans hop)
    obtain ⟨y, hy, hyl⟩ := (h.placed _ j).mp place
    have htarget := h.target?_eq hx.mem hins (Opcode.target?_of_branch exec)
    have hedge : y.id ∈ g.succs x.id :=
      (h.mem_succs_iff hx.mem _).mpr ⟨y, hy.mem, rfl, Or.inr ⟨_, htarget, hyl⟩⟩
    refine ⟨⟨y.id, 0, f'⟩, ?_, stands_start hy f', rfl⟩
    simp [BlockGraph.step, hop, exec, BlockGraph.enter, h.findLabel?_eq hy.mem hyl, hedge]

/-- Control passes from the ends of blocks and through blocks without instructions to the block that
holds the instruction. -/
theorem settle (h : Finished events g) : ∀ (after : List Block) {before : List Block} {x : Block}
    {k : Nat}, g.blocks = before ++ x :: after → x.GoesOn k →
    (bodies before).length + k < (emitted events).length →
    ∃ b, ReflTransGen (fun a b => g.step a = some b) ⟨x.id, k, f⟩ b
      ∧ Stands g b ((bodies before).length + k) ∧ b.frame = f
      ∧ g.opcodeAt? b = (emitted events)[(bodies before).length + k]?
  | after, before, x, k, hbs, Or.inl hk, _ => by
    have hx : StartsAt g.blocks x (bodies before).length := ⟨before, after, hbs, rfl⟩
    have hins := List.getElem?_eq_getElem hk
    refine ⟨_, .refl, ⟨x, _, hx, rfl, rfl, Or.inl hk⟩, rfl, ?_⟩
    rw [h.opcodeAt?_eq hx, hins, h.opcode_eq hx hins]
    rfl
  | [], before, x, k, hbs, Or.inr ⟨hk, hgoto⟩, hlt => by
    -- no instruction is left after the last block
    have hlength := congrArg List.length h.opcodes
    rw [List.length_map, hbs, bodies_append, bodies_singleton, List.length_append] at hlength
    omega
  | c :: after, before, x, k, hbs, Or.inr ⟨hk, hgoto⟩, hlt => by
    have hx : StartsAt g.blocks x (bodies before).length := ⟨before, c :: after, hbs, rfl⟩
    have hedge : c.id ∈ g.succs x.id :=
      (h.mem_succs_iff hx.mem _).mpr ⟨c, by simp [hbs], rfl, Or.inl ⟨hgoto, before, after, hbs⟩⟩
    have hstep : g.step ⟨x.id, k, f⟩ = some ⟨c.id, 0, f⟩ := by
      rw [BlockGraph.step, h.opcodeAt?_eq hx, List.getElem?_eq_none (Nat.le_of_eq hk.symm)]
      simp [BlockGraph.enter, idAfter_split h.ids hbs, hedge]
    have hplace : (bodies (before ++ [x])).length + 0 = (bodies before).length + k := by
      rw [bodies_append, bodies_singleton, List.length_append, hk, Nat.add_zero]
    obtain ⟨b, hb⟩ := h.settle after (hbs.trans (List.append_cons ..)) c.goesOn_zero (hplace ▸ hlt)
    rw [hplace] at hb
    exact ⟨b, .head hstep hb.1, hb.2⟩

theorem moves_of_steps (h : Finished events g)
    (hsteps : ReflTransGen (fun a b => g.step a = some b) a b) (ha : Stands g a i) :
    ∃ j, Stands g b j ∧ ReflTransGen (Moves events) (i, a.frame) (j, b.frame) := by
  induction hsteps with
  | refl => exact ⟨i, ha, .refl⟩
  | tail _ hstep ih =>
    obtain ⟨j, hstands, hmoves⟩ := ih
    rcases h.step_cases hstands hstep with ⟨hb, hframe⟩ | ⟨k, hb, hmove⟩
    · exact ⟨j, hb, hframe ▸ hmoves⟩
    · exact ⟨k, hb, hmoves.tail hmove⟩

theorem settled (h : Finished events g) (ha : Stands g a i) (hi : i < (emitted events).length) :
    ∃ b, ReflTransGen (fun a b => g.step a = some b) a b ∧ Stands g b i ∧ b.frame = a.frame
      ∧ g.opcodeAt? b = (emitted events)[i]? := by
  obtain ⟨x, n, ⟨before, after, hbs, rfl⟩, hid, rfl, hk⟩ := ha
  obtain ⟨id, k, f⟩ := a
  obtain rfl : id = x.id := hid
  exact h.settle after hbs hk hi

theorem steps_of_moves (h : Finished events g) {c d : Nat × Frame}
    (hmoves : ReflTransGen (Moves events) c d) (hd : d.1 < (emitted events).length) :
    ∀ a, Stands g a c.1 → a.frame = c.2 →
      ∃ b, ReflTransGen (fun a b => g.step a = some b) a b ∧ b.frame = d.2
        ∧ g.opcodeAt? b = (emitted events)[d.1]? := by
  induction hmoves using ReflTransGen.head_induction_on with
  | refl =>
    intro a ha hframe
    obtain ⟨b, hsteps, -, hb, hop⟩ := h.settled ha hd
    exact ⟨b, hsteps, hb.trans hframe, hop⟩
  | @head c c' hmove _ ih =>
    intro a ha hframe
    obtain ⟨a', hsteps, ha', hframe', hop⟩ := h.settled ha hmove.index_lt
    have hmove' : Moves events (c.1, a'.frame) (c'.1, c'.2) := by
      rw [hframe', hframe]
      exact hmove
    obtain ⟨b, hstep, hb, hbframe⟩ := h.step_of_moves ha' hop hmove'
    obtain ⟨b', hrest, hb'⟩ := ih b hb hbframe
    exact ⟨b', (hsteps.tail hstep).trans hrest, hb'⟩

theorem returns_iff (h : Finished events g) : g.Returns f f' ↔
    ∃ j, ReflTransGen (Moves events) (0, f) (j, f')
      ∧ (emitted events)[j]? = some (.other "return" []) := by
  constructor
  · rintro ⟨e, hentry, a, hsteps, hop, rfl⟩
    obtain ⟨x, hx, rfl⟩ := Option.map_eq_some_iff.mp hentry
    obtain ⟨rest, hbs⟩ := List.head?_eq_some_iff.mp hx
    have hstart := stands_start (n := 0) ⟨[], rest, hbs, rfl⟩ f
    obtain ⟨j, hstands, hmoves⟩ := h.moves_of_steps hsteps hstart
    exact ⟨j, hmoves, h.opcode_of_opcodeAt? hstands hop⟩
  · rintro ⟨j, hmoves, hop⟩
    have hj := (List.getElem?_eq_some_iff.mp hop).1
    obtain ⟨x, rest, hbs⟩ : ∃ x rest, g.blocks = x :: rest := by
      refine List.exists_cons_of_ne_nil fun hnil => ?_
      have hlength := congrArg List.length h.opcodes
      rw [hnil] at hlength
      simp [bodies] at hlength
      omega
    have hstart := stands_start (n := 0) ⟨[], rest, hbs, rfl⟩ f
    obtain ⟨b, hsteps, hframe, hreturn⟩ := h.steps_of_moves hmoves hj _ hstart rfl
    exact ⟨x.id, by simp [BlockGraph.entry?, hbs], b, hsteps, hreturn.trans hop, hframe⟩

end Finished

end SlotColoring
