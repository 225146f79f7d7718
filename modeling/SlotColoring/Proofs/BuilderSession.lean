import Mathlib.Data.List.Induction
import SlotColoring.Proofs.Wiring

/-!
# Sessions on a builder

A builder is driven by calls, each of which amounts to one event; a call that places a label for
the second time is refused.  What is refused leaves no trace, so a session comes to the same builder
as its accepted calls alone (`Builder.session_accepted`), and these are events that the builder
takes one after the other.  The invariant of such builders (`Builder.Inv`) therefore holds after
every session, and blocks, edges, labels and pending jumps fit together in it (`session_sound`).
-/

namespace SlotColoring

/-- A call on a builder: one of its operations, or an event that is fed to it. -/
inductive BuilderCall where
  | instruction (op : Opcode)
  | label (l : Label)
  | jump (c : Condition) (target : Label)
  | feed (e : Event)
deriving DecidableEq

/-- The event that a call amounts to. -/
def BuilderCall.event : BuilderCall → Event
  | instruction op => .emit op
  | label l => .label l
  | jump c l => .jump c l
  | feed e => e

/-- What a call answers: the instruction that it emitted, the block that it opened for a label,
nothing, or why it was refused. -/
inductive CallAnswer where
  | instruction (id : Nat)
  | block (id : Nat)
  | done
  | refused (e : BuildError)
deriving DecidableEq

/-- The answer is a refusal. -/
def CallAnswer.isRefused : CallAnswer → Bool
  | refused _ => true
  | _ => false

namespace Builder

/-- The builder after a call, and the answer. -/
def call (b : Builder) : BuilderCall → Builder × CallAnswer
  | .instruction op => (b.addInstruction op, .instruction b.instCount)
  | .jump c l => (b.addJump c l, .instruction b.instCount)
  | .label l => match b.addLabel l with
    | .ok b' => (b', .block b.nextBlock)
    | .error e => (b, .refused e)
  | .feed e => match b.feed e with
    | .ok b' => (b', .done)
    | .error err => (b, .refused err)

/-- The builder after some calls, and their answers. -/
def session (b : Builder) : List BuilderCall → Builder × List CallAnswer
  | [] => (b, [])
  | c :: cs =>
    let rest := (b.call c).1.session cs
    (rest.1, (b.call c).2 :: rest.2)

/-- The calls of a session that are not refused. -/
def accepted (b : Builder) : List BuilderCall → List BuilderCall
  | [] => []
  | c :: cs =>
    let rest := (b.call c).1.accepted cs
    if (b.call c).2.isRefused then rest else c :: rest

variable {done : List Event} {b b' : Builder} {c : BuilderCall} {l : Label} {d : Nat}

theorem addLabel_eq_error {e : BuildError} (h : b.addLabel l = .error e) :
    (b.findLabel? l).isSome ∧ e = .duplicateLabel l := by
  unfold addLabel at h
  split_ifs at h with hfound
  exact ⟨hfound, (Except.error.inj h).symm⟩

theorem feed_eq_error {e : Event} {err : BuildError} (h : b.feed e = .error err) :
    ∃ l, e = .label l ∧ (b.findLabel? l).isSome ∧ err = .duplicateLabel l := by
  cases e with
  | label l => exact ⟨l, rfl, addLabel_eq_error h⟩
  | emit op => simp [feed] at h
  | jump c l => simp [feed] at h

/-- What a call can do: its event is taken, or it places a label again and changes nothing. -/
theorem call_cases (b : Builder) (c : BuilderCall) :
    (b.feed c.event = .ok (b.call c).1 ∧ (b.call c).2.isRefused = false)
      ∨ ∃ l, c.event = .label l ∧ (b.findLabel? l).isSome
        ∧ b.call c = (b, .refused (.duplicateLabel l)) := by
  cases c with
  | instruction op => exact Or.inl ⟨rfl, rfl⟩
  | jump c l => exact Or.inl ⟨rfl, rfl⟩
  | label l =>
    rcases hb : b.addLabel l with e | b'
    · obtain ⟨hfound, rfl⟩ := addLabel_eq_error hb
      exact Or.inr ⟨l, rfl, hfound, by simp [call, hb]⟩
    · exact Or.inl ⟨by simp [call, hb, BuilderCall.event, feed],
        by simp [call, hb, CallAnswer.isRefused]⟩
  | feed e =>
    rcases hb : b.feed e with err | b'
    · obtain ⟨l, rfl, hfound, rfl⟩ := feed_eq_error hb
      exact Or.inr ⟨l, rfl, hfound, by simp [call, hb]⟩
    · exact Or.inl ⟨by simp [call, hb, BuilderCall.event],
        by simp [call, hb, CallAnswer.isRefused]⟩

section Refused

theorem call_of_isRefused (h : (b.call c).2.isRefused = true) : (b.call c).1 = b := by
  rcases b.call_cases c with ⟨-, haccepted⟩ | ⟨l, -, -, hcall⟩
  · simp [h] at haccepted
  · rw [hcall]

/-- Without its refused calls a session ends in the same builder and gives the other answers. -/
theorem session_accepted : ∀ (cs : List BuilderCall) (b : Builder),
    b.session (b.accepted cs)
      = ((b.session cs).1, (b.session cs).2.filter fun a => !a.isRefused)
  | [], _ => rfl
  | c :: cs, b => by
    have ih := session_accepted cs (b.call c).1
    rcases hrefused : (b.call c).2.isRefused with _ | _
    · simp [accepted, session, hrefused, ih]
    · rw [call_of_isRefused hrefused] at ih
      simp [accepted, session, hrefused, call_of_isRefused hrefused, ih]

/-- The accepted calls are events that the builder takes. -/
theorem feedAll_accepted : ∀ (cs : List BuilderCall) (b : Builder),
    b.feedAll ((b.accepted cs).map BuilderCall.event) = .ok (b.session cs).1
  | [], _ => rfl
  | c :: cs, b => by
    have ih := feedAll_accepted cs (b.call c).1
    rcases b.call_cases c with ⟨hfeed, haccepted⟩ | ⟨l, -, -, hcall⟩
    · simp [accepted, session, feedAll, haccepted, hfeed, ih]
    · rw [hcall] at ih
      simpa [accepted, session, hcall, CallAnswer.isRefused] using ih

theorem inv_session (head : Head) (cs : List BuilderCall) :
    ((start head).session cs).1.Inv (((start head).accepted cs).map BuilderCall.event) := by
  have h := (Inv.start head).feedAll _ (feedAll_accepted cs (start head))
  rwa [List.nil_append] at h

theorem session_snoc (cs : List BuilderCall) (b : Builder) :
    (b.session (cs ++ [c])).1 = ((b.session cs).1.call c).1 := by
  induction cs generalizing b with
  | nil => rfl
  | cons c' cs ih => exact ih (b.call c').1

end Refused

section Labels

/-- What a search for a label sees of a block. -/
def sign (x : Block) : Option Label × Nat := (x.label, x.id)

theorem findLabel?_eq (b : Builder) (l : Label) : b.findLabel? l
    = ((b.graph.blocks.map sign).find? fun s => s.1 == some l).map Prod.snd := by
  rw [findLabel?, BlockGraph.findLabel?, List.find?_map, Option.map_map]
  rfl

theorem findLabel?_openBlock (b : Builder) (label : Option Label) (l : Label) :
    (b.openBlock label).findLabel? l
      = (b.findLabel? l).or (if label = some l then some b.nextBlock else none) := by
  rw [findLabel?_eq, findLabel?_eq, blocks_openBlock, ← nextBlock_eq, List.map_append,
    List.find?_append, Option.map_or]
  by_cases h : label = some l <;> simp [sign, h]

theorem findLabel?_push (b : Builder) (op : Opcode) (l : Label) :
    (b.push op).findLabel? l = b.findLabel? l := by
  rcases hb : b.blocks with _ | ⟨cur, older⟩
  · simp [findLabel?_eq, push, hb, graph, openBlock, sign]
  · simp [findLabel?_eq, push, hb, graph, sign]

theorem findLabel?_addJump (b : Builder) (c : Condition) (m l : Label) :
    (b.addJump c m).findLabel? l = b.findLabel? l := by
  unfold addJump
  rw [findLabel?_openBlock]
  have hpush := b.findLabel?_push (.jump c m) l
  rcases b.findLabel? m with _ | dest
  all_goals
    simp only [reduceCtorEq, if_false, Option.or_none]
    exact hpush

/-- A label is found once a call has placed it, in the block that was opened then. -/
theorem findLabel?_call (b : Builder) (c : BuilderCall) :
    (b.call c).1.findLabel? l = some d ↔ b.findLabel? l = some d
      ∨ (c.event = .label l ∧ (b.call (.label l)).2 = .block d) := by
  rcases b.call_cases c with ⟨hfeed, -⟩ | ⟨m, hm, hfound, hcall⟩
  · generalize (b.call c).1 = b' at hfeed
    generalize c.event = e at hfeed
    cases e with
    | emit op =>
      obtain rfl := Except.ok.inj hfeed
      cases op <;> simp [addInstruction, findLabel?_push, findLabel?_addJump]
    | jump c m =>
      obtain rfl := Except.ok.inj hfeed
      simp [findLabel?_addJump]
    | label m =>
      simp only [feed, addLabel] at hfeed
      split_ifs at hfeed with hnew
      obtain rfl := Except.ok.inj hfeed
      have hopen : ∀ flow pending, Builder.findLabel?
          { b.openBlock (some m) with flow := flow, pending := pending } l
            = (b.openBlock (some m)).findLabel? l := fun _ _ => rfl
      rw [hopen, findLabel?_openBlock]
      by_cases hml : m = l
      · subst hml
        simp only [Bool.not_eq_true, Option.isSome_eq_false_iff, Option.isNone_iff_eq_none] at hnew
        simp [hnew, call, addLabel]
      · simp [hml]
  · -- the label is there already, and is not given a block for the second time
    rw [hcall, hm]
    refine (or_iff_left ?_).symm
    rintro ⟨hml, hblock⟩
    obtain rfl := Event.label.inj hml
    simp [call, addLabel, hfound] at hblock

theorem findLabel?_session (head : Head) (cs : List BuilderCall) :
    ((start head).session cs).1.findLabel? l = some d ↔
      ∃ before c after, cs = before ++ c :: after ∧ c.event = .label l
        ∧ (((start head).session before).1.call (.label l)).2 = .block d := by
  induction cs using List.reverseRecOn with
  | nil => simp [session, start, findLabel?, graph, BlockGraph.findLabel?]
  | append_singleton cs c ih =>
    rw [session_snoc, findLabel?_call, ih]
    constructor
    · rintro (⟨before, c', after, rfl, hc'⟩ | hc)
      · exact ⟨before, c', after ++ [c], by simp, hc'⟩
      · exact ⟨cs, c, [], rfl, hc⟩
    · rintro ⟨before, c', after, hcs, hc'⟩
      have hsplit := exists_split_snoc (l := cs) (x := c') (y := c)
        (P := fun before => c'.event = .label l
          ∧ (((start head).session before).1.call (.label l)).2 = .block d)
      rcases hsplit.mp ⟨before, after, hcs, hc'⟩ with ⟨bs, as, rfl, h⟩ | ⟨rfl, h⟩
      · exact Or.inl ⟨bs, c', as, rfl, h⟩
      · exact Or.inr h

end Labels

section Pending

theorem mem_labelsOf_iff : l ∈ labelsOf b.graph.blocks ↔ (b.findLabel? l).isSome := by
  rcases hl : b.findLabel? l with _ | d
  · simpa using findLabel?_eq_none hl
  · obtain ⟨x, hx, hxl, -⟩ := findLabel?_eq_some hl
    simpa using mem_labelsOf.mpr ⟨x, hx, hxl⟩

/-- No two blocks carry one label, so the search finds the only one that does. -/
theorem Inv.findLabel?_eq_some_iff (h : b.Inv done) :
    b.findLabel? l = some d ↔ ∃ x ∈ b.graph.blocks, x.label = some l ∧ x.id = d := by
  refine ⟨findLabel?_eq_some, ?_⟩
  rintro ⟨x, hx, hxl, rfl⟩
  have hplaced : (b.findLabel? l).isSome := mem_labelsOf_iff.mp (mem_labelsOf.mpr ⟨x, hx, hxl⟩)
  obtain ⟨d, hd⟩ := Option.isSome_iff_exists.mp hplaced
  obtain ⟨y, hy, hyl, rfl⟩ := findLabel?_eq_some hd
  rw [hd, Layout.eq_of_label_eq h.layout.labels hy hx hyl hxl]

theorem waiting_awaited (labels : List Label) (l : Label) : ∀ bs : List Block,
    ((bs.filterMap (awaited labels)).filter fun e => e.1 = l).map Prod.snd
      = if l ∈ labels then [] else (bs.filter fun x => x.target? = some l).map Block.id
  | [] => by simp
  | x :: bs => by
    have ih := waiting_awaited labels l bs
    rcases hx : x.target? with _ | m
    · simp [awaited_eq_none hx, ih, hx]
    · by_cases hm : m ∈ labels
      · have hnone : awaited labels x = none := by simp [awaited, hx, hm]
        have hne : l ∉ labels → m ≠ l := fun hl hml => hl (hml ▸ hm)
        rw [List.filterMap_cons, hnone, ih]
        split_ifs with hl
        · rfl
        · simp [hx, hne hl]
      · have hsome : awaited labels x = some (m, x.id) := awaited_eq_some.mpr ⟨hx, hm, rfl⟩
        rw [List.filterMap_cons, hsome]
        by_cases hml : m = l
        · subst hml
          simpa [hx, hm] using ih
        · simpa [hx, hml] using ih

theorem Inv.waitingOn_eq (h : b.Inv done) (l : Label) : b.pending.waitingOn l
    = if (b.findLabel? l).isSome then []
      else (b.graph.blocks.filter fun x => x.target? = some l).map Block.id := by
  rw [PendingJumps.waitingOn, h.wired.entries_eq, waiting_awaited]
  simp only [mem_labelsOf_iff]

end Pending

end Builder

/-- What the calls of a session make of a builder. -/
structure SessionSound (head : Head) (calls : List BuilderCall) (b : Builder) : Prop where
  converse : ∀ x y, y ∈ b.graph.succs x ↔ x ∈ b.graph.preds y
  joins : ∀ x y, y ∈ b.graph.succs x → (∃ a ∈ b.graph.blocks, a.id = x)
    ∧ ∃ c ∈ b.graph.blocks, c.id = y
  blocks_once : (b.graph.blocks.map Block.id).Nodup
  instructions_once : b.graph.instructions.map Instruction.id = List.range b.instCount
  owner : ∀ i ∈ b.graph.instructions, ∃! x, x ∈ b.graph.blocks ∧ i ∈ x.body
  owner_named : ∀ x ∈ b.graph.blocks, ∀ i ∈ x.body, i.block = x.id
  jumps_last : ∀ x ∈ b.graph.blocks, ∀ i ∈ x.body.dropLast, i.opcode.target? = none
  last_open : ∀ x, b.graph.last? = some x → x.target? = none
  /-- A label is found in the block that the call that placed it answers. -/
  label_found : ∀ l d, b.findLabel? l = some d ↔ ∃ before c after, calls = before ++ c :: after
    ∧ c.event = .label l ∧ (((Builder.start head).session before).1.call (.label l)).2 = .block d
  waiting : ∀ l, b.findLabel? l = none →
    b.pending.waitingOn l = (b.graph.blocks.filter fun x => x.target? = some l).map Block.id
      ∧ (b.pending.waitingOn l).Nodup
  waiting_placed : ∀ l, (b.findLabel? l).isSome → b.pending.waitingOn l = []
  isEmpty_iff : b.pending.isEmpty = true ↔ b.pending.size = 0
  settled_iff : b.pending.isEmpty = true ↔ ∀ l, b.pending.waitingOn l = []
  /-- A call is refused exactly if it places a label that is found, and then changes nothing. -/
  refused_iff : ∀ c e, (b.call c).2 = .refused e ↔
    ∃ l, c.event = .label l ∧ (b.findLabel? l).isSome ∧ e = .duplicateLabel l
  refused_unchanged : ∀ c e, (b.call c).2 = .refused e → (b.call c).1 = b
  /-- The session without its refused calls is the same session. -/
  accepted_same : (Builder.start head).session ((Builder.start head).accepted calls)
    = (b, ((Builder.start head).session calls).2.filter fun a => !a.isRefused)

namespace Builder.Inv

variable {done : List Event} {b : Builder}

theorem existsUnique_owner (h : b.Inv done) {i : Instruction} (hi : i ∈ b.graph.instructions) :
    ∃! x, x ∈ b.graph.blocks ∧ i ∈ x.body := by
  obtain ⟨x, hx, hix⟩ := List.mem_flatMap.mp hi
  refine ⟨x, ⟨hx, hix⟩, ?_⟩
  rintro y ⟨hy, hiy⟩
  refine h.layout.eq_of_id_eq hy hx ?_
  rw [← h.layout.owner y hy i hiy, h.layout.owner x hx i hix]

theorem nodup_ids (h : b.Inv done) : (b.graph.blocks.map Block.id).Nodup :=
  h.layout.nodup_ids

end Builder.Inv

/-- After any session on a builder, refused calls included, its blocks, edges, labels and pending
jumps fit together. -/
theorem session_sound (head : Head) (calls : List BuilderCall) :
    SessionSound head calls ((Builder.start head).session calls).1 := by
  have h := Builder.inv_session head calls
  have hsame := Builder.session_accepted calls (Builder.start head)
  have hfound := fun l d => Builder.findLabel?_session (l := l) (d := d) head calls
  generalize hb : ((Builder.start head).session calls).1 = b at h hsame hfound
  refine ⟨fun x y => ?_, fun x y hxy => ?_, h.nodup_ids, ?_, fun i => h.existsUnique_owner,
    h.layout.owner, h.layout.closed, fun x hx => ?_, hfound, fun l hl => ?_, fun l hl => ?_,
    b.pending.isEmpty_iff_size, b.pending.isEmpty_iff_waitingOn, fun c e => ?_, fun c e hc => ?_,
    hsame⟩
  · rw [BlockGraph.preds, BlockGraph.succs, Digraph.mem_preds, Digraph.mem_succs]
  · have hadj : b.flow.Adj x y := Digraph.mem_succs.mp hxy
    obtain ⟨a, ha, c, hc, hax, hcy, -⟩ := (h.wired.adj_iff x y).mp hadj
    exact ⟨⟨a, ha, hax⟩, c, hc, hcy⟩
  · rw [b.instCount_eq]
    exact h.layout.instIds
  · rw [BlockGraph.last?, Builder.graph, List.getLast?_reverse] at hx
    exact h.idle x hx
  · have hwaiting := h.waitingOn_eq l
    rw [hl, Option.isSome_none, if_neg (by simp)] at hwaiting
    rw [hwaiting]
    exact ⟨rfl, h.nodup_ids.sublist (List.filter_sublist.map _)⟩
  · rw [h.waitingOn_eq l, if_pos hl]
  · rcases b.call_cases c with ⟨hfeed, haccepted⟩ | ⟨l, hl, hplaced, hcall⟩
    · refine ⟨fun hc => by simp [hc, CallAnswer.isRefused] at haccepted, ?_⟩
      rintro ⟨l, hl, hplaced, -⟩
      simp [hl, Builder.feed, Builder.addLabel, hplaced] at hfeed
    · rw [hcall, CallAnswer.refused.injEq]
      refine ⟨fun he => ⟨l, hl, hplaced, he.symm⟩, ?_⟩
      rintro ⟨m, hm, -, rfl⟩
      rw [← Event.label.inj (hl.symm.trans hm)]
  · exact Builder.call_of_isRefused (by rw [hc]; rfl)

end SlotColoring
