import Mathlib.Data.List.AList
import SlotColoring.Proofs.BuilderSession
import SlotColoring.Proofs.TwoEnded

/-!
# A builder that looks things up

A builder may keep the blocks of the labels that are placed and the jumps that wait for a label in
two maps, beside a graph that keeps its edges at both ends, and need not search its blocks and its
list of jumps then (`IndexedBuilder`).  Such a builder gives the answers that the one with a single
list of edges and a single list of jumps gives, call by call (`Indexes.session`), and the same graph
in the end (`Indexes.finish`).  So in it, too, the two sets of every edge agree, a label is looked
up where a search finds it, and the map of the waiting jumps is empty only if no jump waits
(`indexed_sound`).
-/

namespace SlotColoring

/-- A builder that keeps its edges at both ends, the block of every label that is placed, and the
blocks whose jumps wait for a label, under that label. -/
structure IndexedBuilder where
  head : Head
  blocks : List Block
  flow : TwoEnded
  labels : AList fun _ : Label => Nat
  waiting : AList fun _ : Label => List Nat

namespace IndexedBuilder

/-- The builder that has seen no event. -/
def start (head : Head) : IndexedBuilder := ⟨head, [], ∅, ∅, ∅⟩

/-- The graph built so far. -/
def graph (i : IndexedBuilder) : IndexedGraph := ⟨i.head, i.blocks.reverse, i.flow⟩

/-- The number of instructions, which is the id of the next one. -/
def instCount (i : IndexedBuilder) : Nat := sumOf (fun x => x.body.length) i.blocks

/-- Opens a block at the end.  Control falls into it from the block before, unless that ends
in `goto`. -/
def openBlock (i : IndexedBuilder) (label : Option Label) : IndexedBuilder :=
  { i with
    blocks := ⟨i.blocks.length, label, []⟩ :: i.blocks
    flow := match i.blocks with
      | [] => i.flow
      | prev :: _ => if prev.endsInGoto then i.flow else i.flow.link prev.id i.blocks.length }

/-- Puts an instruction at the end of the newest block, opening one if there is none. -/
def push (i : IndexedBuilder) (op : Opcode) : IndexedBuilder :=
  let i' := if i.blocks.isEmpty then i.openBlock none else i
  { i' with
    blocks := i'.blocks.modifyHead fun cur =>
      { cur with body := cur.body ++ [⟨i.instCount, cur.id, op⟩] } }

/-- The blocks that wait for a label, in recorded order. -/
def waitingOn (i : IndexedBuilder) (l : Label) : List Nat := (i.waiting.lookup l).getD []

/-- Emits a jump and closes the block with it. -/
def addJump (i : IndexedBuilder) (c : Condition) (target : Label) : IndexedBuilder :=
  let pushed := i.push (.jump c target)
  let current := i.blocks.length - 1
  let aimed := match i.labels.lookup target with
    | some dest => { pushed with flow := pushed.flow.link current dest }
    | none =>
      { pushed with waiting := pushed.waiting.insert target (i.waitingOn target ++ [current]) }
  aimed.openBlock none

/-- Emits an instruction. -/
def addInstruction (i : IndexedBuilder) : Opcode → IndexedBuilder
  | .jump c target => i.addJump c target
  | op => i.push op

/-- Places a label: opens its block and gives the jumps that waited for it their edges. -/
def addLabel (i : IndexedBuilder) (l : Label) : Except BuildError IndexedBuilder :=
  if (i.labels.lookup l).isSome then
    .error (.duplicateLabel l)
  else
    let i' := i.openBlock (some l)
    .ok { i' with
      labels := i.labels.insert l i.blocks.length
      flow := (i.waitingOn l).foldl (fun flow a => flow.link a i.blocks.length) i'.flow
      waiting := i.waiting.erase l }

/-- Takes an event, if it does not place a label again. -/
def feed (i : IndexedBuilder) : Event → Except BuildError IndexedBuilder
  | .emit op => .ok (i.addInstruction op)
  | .label l => i.addLabel l
  | .jump c target => .ok (i.addJump c target)

/-- The builder after a call, and the answer. -/
def call (i : IndexedBuilder) : BuilderCall → IndexedBuilder × CallAnswer
  | .instruction op => (i.addInstruction op, .instruction i.instCount)
  | .jump c l => (i.addJump c l, .instruction i.instCount)
  | .label l => match i.addLabel l with
    | .ok i' => (i', .block i.blocks.length)
    | .error e => (i, .refused e)
  | .feed e => match i.feed e with
    | .ok i' => (i', .done)
    | .error err => (i, .refused err)

/-- The builder after some calls, and their answers. -/
def session (i : IndexedBuilder) : List BuilderCall → IndexedBuilder × List CallAnswer
  | [] => (i, [])
  | c :: cs =>
    let rest := (i.call c).1.session cs
    (rest.1, (i.call c).2 :: rest.2)

/-- The number of jumps that wait. -/
def pendingCount (i : IndexedBuilder) : Nat := sumOf (fun e => e.2.length) i.waiting.entries

/-- The finished graph, if no label is waited for. -/
def finish (i : IndexedBuilder) : Except BuildError IndexedGraph :=
  if i.waiting.keys.isEmpty then .ok i.graph.purge
  else .error (.unresolvedLabels (OrdSet.ofList i.waiting.keys).toList)

/-- An instruction changes neither of the maps. -/
theorem maps_push (i : IndexedBuilder) (op : Opcode) :
    (i.push op).labels = i.labels ∧ (i.push op).waiting = i.waiting := by
  unfold push
  by_cases hempty : i.blocks.isEmpty = true
  · rw [if_pos hempty]
    exact ⟨rfl, rfl⟩
  · rw [if_neg hempty]
    exact ⟨rfl, rfl⟩

end IndexedBuilder

/-- Both fail with the same error, or both succeed and their results are related. -/
inductive Alike {ε α β : Type} (r : α → β → Prop) : Except ε α → Except ε β → Prop where
  | ok {x : α} {y : β} (h : r x y) : Alike r (.ok x) (.ok y)
  | error (e : ε) : Alike r (.error e) (.error e)

/-- The maps of the second builder show what a search of the first one finds. -/
structure Indexes (b : Builder) (i : IndexedBuilder) : Prop where
  head : i.head = b.head
  blocks : i.blocks = b.blocks
  flow : i.flow.Keeps b.flow.Adj
  labels : ∀ l, i.labels.lookup l = b.findLabel? l
  waiting : ∀ l, i.waitingOn l = b.pending.waitingOn l
  /-- Where nothing waits for a label, nothing is kept for it. -/
  proper : ∀ l, i.waiting.lookup l ≠ some []

namespace Indexes

variable {b : Builder} {i : IndexedBuilder}

theorem start (head : Head) : Indexes (.start head) (.start head) where
  head := rfl
  blocks := rfl
  flow := TwoEnded.keeps_empty.congr fun _ _ => iff_of_false id List.not_mem_nil
  labels _ := rfl
  waiting _ := rfl
  proper l := by simp [IndexedBuilder.start]

theorem graph (h : Indexes b i) : b.graph.Indexed i.graph :=
  ⟨h.head, congrArg List.reverse h.blocks, h.flow⟩

theorem instCount (h : Indexes b i) : i.instCount = b.instCount := by
  rw [IndexedBuilder.instCount, h.blocks, Builder.instCount]

/-- Opening a block changes the blocks and the edges in the same way in both. -/
theorem flow_openBlock (h : Indexes b i) (label : Option Label) :
    (i.openBlock label).flow.Keeps (b.openBlock label).flow.Adj := by
  unfold IndexedBuilder.openBlock Builder.openBlock Builder.nextBlock
  rw [h.blocks]
  rcases b.blocks with _ | ⟨prev, older⟩
  · exact h.flow
  · show (if prev.endsInGoto = true then _ else _ : TwoEnded).Keeps
      (if prev.endsInGoto = true then _ else _ : Digraph).Adj
    split
    · exact h.flow
    · exact h.flow.link_adj _ _

theorem blocks_openBlock (h : Indexes b i) (label : Option Label) :
    (i.openBlock label).blocks = (b.openBlock label).blocks := by
  rw [IndexedBuilder.openBlock, Builder.openBlock, h.blocks, Builder.nextBlock]

theorem openBlock_none (h : Indexes b i) : Indexes (b.openBlock none) (i.openBlock none) where
  head := h.head
  blocks := h.blocks_openBlock none
  flow := h.flow_openBlock none
  labels l := by
    rw [Builder.findLabel?_openBlock, if_neg (by simp), Option.or_none]
    exact h.labels l
  waiting := h.waiting
  proper := h.proper

theorem push (h : Indexes b i) (op : Opcode) : Indexes (b.push op) (i.push op) := by
  have hopened : Indexes (if b.blocks.isEmpty then b.openBlock none else b)
      (if i.blocks.isEmpty then i.openBlock none else i) := by
    rw [h.blocks]
    split
    · exact h.openBlock_none
    · exact h
  refine ⟨hopened.head, ?_, hopened.flow, fun l => ?_, hopened.waiting, hopened.proper⟩
  · show List.modifyHead _ _ = List.modifyHead _ _
    rw [hopened.blocks, h.instCount]
  · rw [Builder.findLabel?_push, ← h.labels l, (i.maps_push op).1]

theorem addJump (h : Indexes b i) (c : Condition) (l : Label) :
    Indexes (b.addJump c l) (i.addJump c l) := by
  have hpushed := h.push (.jump c l)
  have hcurrent : i.blocks.length - 1 = b.currentId := by rw [h.blocks, Builder.currentId]
  unfold Builder.addJump IndexedBuilder.addJump
  rw [h.labels l, hcurrent]
  refine openBlock_none ?_
  rcases b.findLabel? l with _ | dest
  · -- the jump is written down with the others that wait for the label
    have hrecorded : ∀ m, ((b.push (.jump c l)).pending.record l b.currentId).waitingOn m
        = i.waitingOn m ++ if l = m then [b.currentId] else [] := fun m => by
      rw [PendingJumps.waitingOn_record, ← hpushed.waiting, IndexedBuilder.waitingOn,
        (i.maps_push _).2, ← IndexedBuilder.waitingOn]
    refine ⟨hpushed.head, hpushed.blocks, hpushed.flow, hpushed.labels, fun m => ?_, fun m => ?_⟩
    · refine Eq.trans ?_ (hrecorded m).symm
      by_cases hm : l = m
      · subst hm
        simp [IndexedBuilder.waitingOn]
      · simp [IndexedBuilder.waitingOn, AList.lookup_insert_ne (Ne.symm hm), i.maps_push, hm]
    · by_cases hm : l = m
      · subst hm
        simp
      · rw [AList.lookup_insert_ne (Ne.symm hm)]
        exact hpushed.proper m
  · exact ⟨hpushed.head, hpushed.blocks, hpushed.flow.link_adj _ _, hpushed.labels,
      hpushed.waiting, hpushed.proper⟩

theorem addInstruction (h : Indexes b i) (op : Opcode) :
    Indexes (b.addInstruction op) (i.addInstruction op) := by
  cases op with
  | jump c l => exact h.addJump c l
  | load s => exact h.push _
  | store s => exact h.push _
  | other m operands => exact h.push _

theorem addLabel (h : Indexes b i) (l : Label) : Alike Indexes (b.addLabel l) (i.addLabel l) := by
  unfold Builder.addLabel IndexedBuilder.addLabel
  rw [h.labels l]
  split
  · exact .error _
  · rename_i hnew
    have hnone : b.findLabel? l = none := by simpa using hnew
    have hnext : i.blocks.length = b.nextBlock := by rw [h.blocks, Builder.nextBlock]
    refine .ok ⟨h.head, h.blocks_openBlock _, ?_, fun m => ?_, fun m => ?_, fun m => ?_⟩
    · rw [hnext, h.waiting l]
      exact (h.flow_openBlock _).linkInto_adj _ _
    · show (i.labels.insert l i.blocks.length).lookup m = (b.openBlock (some l)).findLabel? m
      rw [Builder.findLabel?_openBlock, hnext]
      by_cases hm : m = l
      · subst hm
        simp [hnone]
      · rw [AList.lookup_insert_ne hm, h.labels m]
        simp [Ne.symm hm]
    · show ((i.waiting.erase l).lookup m).getD [] = (b.pending.settle l).waitingOn m
      rw [PendingJumps.waitingOn_settle]
      by_cases hm : m = l
      · subst hm
        simp
      · rw [AList.lookup_erase_ne hm, if_neg hm]
        exact h.waiting m
    · by_cases hm : m = l
      · subst hm
        simp
      · rw [AList.lookup_erase_ne hm]
        exact h.proper m

theorem feed (h : Indexes b i) (e : Event) : Alike Indexes (b.feed e) (i.feed e) := by
  cases e with
  | emit op => exact .ok (h.addInstruction op)
  | label l => exact h.addLabel l
  | jump c l => exact .ok (h.addJump c l)

/-- A call is answered alike by both, and leaves both in step. -/
theorem call (h : Indexes b i) (c : BuilderCall) :
    Indexes (b.call c).1 (i.call c).1 ∧ (i.call c).2 = (b.call c).2 := by
  cases c with
  | instruction op => exact ⟨h.addInstruction op, congrArg _ h.instCount⟩
  | jump c l => exact ⟨h.addJump c l, congrArg _ h.instCount⟩
  | label l =>
    have hlabel := h.addLabel l
    simp only [Builder.call, IndexedBuilder.call]
    generalize b.addLabel l = searched, i.addLabel l = indexed at hlabel ⊢
    cases hlabel with
    | ok h' => exact ⟨h', by rw [h.blocks, Builder.nextBlock]⟩
    | error e => exact ⟨h, rfl⟩
  | feed e =>
    have hfeed := h.feed e
    simp only [Builder.call, IndexedBuilder.call]
    generalize b.feed e = searched, i.feed e = indexed at hfeed ⊢
    cases hfeed with
    | ok h' => exact ⟨h', rfl⟩
    | error err => exact ⟨h, rfl⟩

/-- So is a whole session. -/
theorem session (h : Indexes b i) (cs : List BuilderCall) :
    Indexes (b.session cs).1 (i.session cs).1 ∧ (i.session cs).2 = (b.session cs).2 := by
  induction cs generalizing b i with
  | nil => exact ⟨h, rfl⟩
  | cons c cs ih =>
    obtain ⟨hcall, hanswer⟩ := h.call c
    obtain ⟨hrest, hanswers⟩ := ih hcall
    refine ⟨hrest, ?_⟩
    show (i.call c).2 :: _ = (b.call c).2 :: _
    rw [hanswer, hanswers]

theorem mem_waiting (h : Indexes b i) (l : Label) :
    l ∈ i.waiting ↔ b.pending.waitingOn l ≠ [] := by
  rw [← h.waiting l, ← AList.lookup_isSome, IndexedBuilder.waitingOn]
  have hproper := h.proper l
  rcases hl : i.waiting.lookup l with _ | froms
  · simp
  · simpa [hl] using hproper

theorem keys_isEmpty (h : Indexes b i) : i.waiting.keys.isEmpty = b.pending.isEmpty := by
  rw [Bool.eq_iff_iff, PendingJumps.isEmpty_iff_waitingOn, List.isEmpty_iff,
    List.eq_nil_iff_forall_not_mem]
  refine forall_congr' fun l => ?_
  rw [← AList.mem_keys, h.mem_waiting, not_not]

theorem keys_ascending (h : Indexes b i) : OrdSet.ofList i.waiting.keys = b.pending.labels := by
  refine OrdSet.ext_mem fun l => ?_
  rw [OrdSet.mem_ofList, ← AList.mem_keys, h.mem_waiting, PendingJumps.mem_labels]

/-- Both finish with the same graph, or name the same labels that are missing. -/
theorem finish (h : Indexes b i) : Alike BlockGraph.Indexed b.finish i.finish := by
  unfold Builder.finish IndexedBuilder.finish
  rw [h.keys_isEmpty, h.keys_ascending]
  split
  · exact .ok h.graph.purge
  · exact .error _

theorem pendingCount (h : Indexes b i) : i.pendingCount = b.pending.size := by
  have hlength : ∀ e ∈ i.waiting.entries, e.2.length = (b.pending.waitingOn e.1).length :=
    fun e he => by
      rw [← h.waiting, IndexedBuilder.waitingOn, AList.mem_lookup_iff.mpr he, Option.getD_some]
  have hkeys : ∀ l, b.pending.waitingOn l ≠ [] → l ∈ i.waiting.keys := fun l hl => by
    rwa [← AList.mem_keys, h.mem_waiting]
  rw [IndexedBuilder.pendingCount, sumOf_congr hlength,
    ← b.pending.sum_waitingOn i.waiting.keys_nodup hkeys, AList.keys, List.keys, sumOf_map]

end Indexes

/-- The two sets of every edge, the map of the labels and the map of the jumps that wait agree with
each other and with the blocks. -/
structure IndexedBuilder.Consistent (i : IndexedBuilder) : Prop where
  converse : ∀ x y, y ∈ i.flow.succs x ↔ x ∈ i.flow.preds y
  labels : ∀ l d, i.labels.lookup l = some d ↔ ∃ x ∈ i.blocks, x.label = some l ∧ x.id = d
  /-- A label that is placed is not waited for. -/
  disjoint : ∀ l ∈ i.labels, l ∉ i.waiting
  isEmpty_iff : i.waiting.keys.isEmpty = true ↔ i.pendingCount = 0

/-- The builder that looks things up answers every session as the one that searches does, comes to
the same graph, and keeps what it writes down twice consistent. -/
theorem indexed_sound (head : Head) (calls : List BuilderCall) :
    let searched := (Builder.start head).session calls
    let indexed := (IndexedBuilder.start head).session calls
    indexed.2 = searched.2 ∧ Alike BlockGraph.Indexed searched.1.finish indexed.1.finish
      ∧ indexed.1.Consistent := by
  intro searched indexed
  obtain ⟨h, hanswers⟩ := (Indexes.start head).session calls
  have hinv := Builder.inv_session head calls
  refine ⟨hanswers, h.finish, h.flow.converse, fun l d => ?_, fun l hl => ?_, ?_⟩
  · rw [h.labels l, h.blocks]
    simpa only [Builder.graph, List.mem_reverse] using hinv.findLabel?_eq_some_iff
  · rw [h.mem_waiting, not_not, hinv.waitingOn_eq l, if_pos]
    rwa [← h.labels l, AList.lookup_isSome]
  · rw [h.keys_isEmpty, h.pendingCount, PendingJumps.isEmpty_iff_size]

end SlotColoring
