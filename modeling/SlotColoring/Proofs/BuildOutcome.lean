import SlotColoring.Proofs.BuilderSession

/-!
# What becomes of a stream of events

A builder refuses an event only if it places a label again, and it finds the label exactly if an
earlier event has placed it; so it stops at the first event that repeats a label
(`Builder.Inv.feedAll_cases`).  If none does, what is still pending at the end are the jumps to
labels that no event places, whatever the order in which jumps and labels came
(`Builder.Inv.mem_pending_labels`).  So the outcome of building is a matter of the labels in the
stream alone (`build_outcome`).
-/

namespace SlotColoring

/-- The label that an event places. -/
def Event.label? : Event → Option Label
  | .label l => some l
  | _ => none

/-- The labels that events place, in order. -/
def placedLabels (events : List Event) : List Label := events.filterMap Event.label?

/-- The labels that jumps among the events name, in order. -/
def jumpTargets (events : List Event) : List Label := (emitted events).filterMap Opcode.target?

/-- Some event places a label that an earlier one has placed. -/
def Repeats (events : List Event) : Prop :=
  ∃ l before after, events = before ++ .label l :: after ∧ .label l ∈ before

/-- The first event that places a label again places `l`. -/
def FirstRepeat (events : List Event) (l : Label) : Prop :=
  ∃ before after, events = before ++ .label l :: after ∧ .label l ∈ before ∧ ¬ Repeats before

/-- A jump names the label, and no event places it. -/
def Missing (events : List Event) (l : Label) : Prop :=
  (∃ c, .jump c l ∈ events ∨ .emit (.jump c l) ∈ events) ∧ .label l ∉ events

section Lists

variable {events : List Event} {l : Label}

theorem mem_placedLabels : l ∈ placedLabels events ↔ .label l ∈ events := by
  rw [placedLabels, List.mem_filterMap]
  constructor
  · rintro ⟨e, he, hl⟩
    cases e with
    | label m => exact Option.some.inj hl ▸ he
    | emit op => simp [Event.label?] at hl
    | jump c m => simp [Event.label?] at hl
  · exact fun h => ⟨_, h, rfl⟩

@[simp]
theorem placedLabels_nil : placedLabels [] = [] := rfl

@[simp]
theorem placedLabels_cons (e : Event) (es : List Event) :
    placedLabels (e :: es) = e.label?.toList ++ placedLabels es := by
  cases e <;> rfl

@[simp]
theorem placedLabels_append (es fs : List Event) :
    placedLabels (es ++ fs) = placedLabels es ++ placedLabels fs :=
  List.filterMap_append

@[simp]
theorem jumpTargets_nil : jumpTargets [] = [] := rfl

@[simp]
theorem jumpTargets_cons (e : Event) (es : List Event) :
    jumpTargets (e :: es) = (e.opcode?.bind Opcode.target?).toList ++ jumpTargets es := by
  rcases e with op | l | ⟨c, l⟩
  · cases op <;> rfl
  · rfl
  · rfl

@[simp]
theorem jumpTargets_append (es fs : List Event) :
    jumpTargets (es ++ fs) = jumpTargets es ++ jumpTargets fs := by
  rw [jumpTargets, emitted_append, List.filterMap_append, jumpTargets, jumpTargets]

theorem mem_jumpTargets :
    l ∈ jumpTargets events ↔ ∃ c, .jump c l ∈ events ∨ .emit (.jump c l) ∈ events := by
  rw [jumpTargets, emitted, List.filterMap_filterMap, List.mem_filterMap]
  constructor
  · rintro ⟨e, he, hl⟩
    rcases e with op | m | ⟨c, m⟩
    · cases op with
      | jump c m => exact ⟨c, Or.inr (Option.some.inj hl ▸ he)⟩
      | load s => simp [Event.opcode?, Opcode.target?] at hl
      | store s => simp [Event.opcode?, Opcode.target?] at hl
      | other m operands => simp [Event.opcode?, Opcode.target?] at hl
    · simp [Event.opcode?] at hl
    · exact ⟨c, Or.inl (Option.some.inj hl ▸ he)⟩
  · rintro ⟨c, he | he⟩
    · exact ⟨_, he, rfl⟩
    · exact ⟨_, he, rfl⟩

theorem missing_iff :
    Missing events l ↔ l ∈ jumpTargets events ∧ l ∉ placedLabels events := by
  rw [Missing, mem_jumpTargets, mem_placedLabels]

/-- The missing labels can be listed in order. -/
theorem exists_missing_list (events : List Event) :
    ∃ ls, Ascending ls ∧ ∀ l, l ∈ ls ↔ Missing events l := by
  refine ⟨(OrdSet.ofList ((jumpTargets events).filter (· ∉ placedLabels events))).toList,
    OrdSet.ascending _, fun l => ?_⟩
  rw [OrdSet.mem_toList, OrdSet.mem_ofList, List.mem_filter, decide_eq_true_eq, missing_iff]

theorem repeats_snoc {e : Event} :
    Repeats (events ++ [e]) ↔ Repeats events ∨ ∃ l, .label l = e ∧ .label l ∈ events := by
  rw [Repeats, Repeats, ← exists_or]
  exact exists_congr fun l => exists_split_snoc

theorem nodup_placedLabels_snoc {e : Event} : (placedLabels (events ++ [e])).Nodup ↔
    (placedLabels events).Nodup ∧ ∀ l, .label l = e → .label l ∉ events := by
  rw [placedLabels_append, List.nodup_append']
  cases e with
  | label m => simp [Event.label?, ← mem_placedLabels]
  | emit op => simp [Event.label?]
  | jump c m => simp [Event.label?]

theorem not_repeats_iff : ¬ Repeats events ↔ (placedLabels events).Nodup := by
  induction events using List.reverseRecOn with
  | nil => simp [Repeats]
  | append_singleton es e ih =>
    rw [repeats_snoc, nodup_placedLabels_snoc, not_or, ih]
    simp only [not_exists, not_and]

theorem FirstRepeat.repeats (h : FirstRepeat events l) : Repeats events := by
  obtain ⟨before, after, hsplit, hmem, -⟩ := h
  exact ⟨l, before, after, hsplit, hmem⟩

theorem exists_firstRepeat_iff : (∃ l, FirstRepeat events l) ↔ Repeats events := by
  refine ⟨fun ⟨l, hl⟩ => hl.repeats, fun h => ?_⟩
  induction events using List.reverseRecOn with
  | nil => simp [Repeats] at h
  | append_singleton es e ih =>
    by_cases hes : Repeats es
    · obtain ⟨l, before, after, rfl, hl, hfresh⟩ := ih hes
      exact ⟨l, before, after ++ [e], by simp, hl, hfresh⟩
    · obtain ⟨l, rfl, hl⟩ := (repeats_snoc.mp h).resolve_left hes
      exact ⟨l, es, [], rfl, hl, hes⟩

/-- Of two events that repeat a label, the first stands before the second. -/
theorem FirstRepeat.unique {m : Label} (h : FirstRepeat events l) (h' : FirstRepeat events m) :
    l = m := by
  obtain ⟨before, after, rfl, hl, hfresh⟩ := h
  obtain ⟨before', after', hsplit, hm, hfresh'⟩ := h'
  rcases List.append_eq_append_iff.mp hsplit with ⟨as, rfl, hrest⟩ | ⟨as, rfl, hrest⟩
  · rcases as with _ | ⟨a, as⟩
    · exact Event.label.inj (List.cons.inj hrest).1
    · obtain ⟨rfl, -⟩ := List.cons.inj hrest
      exact absurd ⟨l, before, as, rfl, hl⟩ hfresh'
  · rcases as with _ | ⟨a, as⟩
    · exact (Event.label.inj (List.cons.inj hrest).1).symm
    · obtain ⟨rfl, -⟩ := List.cons.inj hrest
      exact absurd ⟨m, before', as, rfl, hm⟩ hfresh

theorem mem_labelsOf_iff_mem_placedLabels {bs : List Block}
    (hplaced : ∀ l n, PlacedAt events l n ↔ ∃ x, StartsAt bs x n ∧ x.label = some l) :
    l ∈ labelsOf bs ↔ l ∈ placedLabels events := by
  rw [mem_labelsOf, mem_placedLabels]
  constructor
  · rintro ⟨x, hx, hl⟩
    obtain ⟨before, after, hsplit⟩ := List.append_of_mem hx
    obtain ⟨es, fs, rfl, -⟩ := (hplaced l _).mpr ⟨x, ⟨before, after, hsplit, rfl⟩, hl⟩
    simp
  · intro hl
    obtain ⟨before, after, hsplit⟩ := List.append_of_mem hl
    obtain ⟨x, hx, hxl⟩ := (hplaced l _).mp ⟨before, after, hsplit, rfl⟩
    exact ⟨x, hx.mem, hxl⟩

/-- A jump closes its block, so the blocks end in all the jumps that the events emit. -/
theorem exists_block_iff_mem_jumpTargets {bs : List Block}
    (hops : (bodies bs).map Instruction.opcode = emitted events)
    (hclosed : ∀ x ∈ bs, ∀ i ∈ x.body.dropLast, i.opcode.target? = none) :
    (∃ x ∈ bs, x.target? = some l) ↔ l ∈ jumpTargets events := by
  rw [jumpTargets, ← hops, List.filterMap_map, List.mem_filterMap]
  constructor
  · rintro ⟨x, hx, htarget⟩
    obtain ⟨op, hlast, hl⟩ := Option.bind_eq_some_iff.mp htarget
    obtain ⟨i, hi, rfl⟩ := Option.map_eq_some_iff.mp hlast
    exact ⟨i, List.mem_flatMap.mpr ⟨x, hx, List.mem_of_getLast? hi⟩, hl⟩
  · rintro ⟨i, hi, hl⟩
    obtain ⟨x, hx, hix⟩ := List.mem_flatMap.mp hi
    refine ⟨x, hx, ?_⟩
    obtain ⟨body, last, hbody⟩ := (List.eq_nil_or_concat x.body).resolve_left
      (List.ne_nil_of_mem hix)
    rw [List.concat_eq_append] at hbody
    rw [hbody, List.mem_append, List.mem_singleton] at hix
    rcases hix with hix | rfl
    · have hinner := hclosed x hx i (by rwa [hbody, List.dropLast_concat])
      simp [hinner] at hl
    · simpa [Block.target?, Block.lastOpcode?, hbody] using hl

end Lists

namespace Builder

variable {done : List Event} {b b' : Builder} {l : Label}

namespace Inv

theorem isSome_findLabel?_iff (h : b.Inv done) :
    (b.findLabel? l).isSome ↔ l ∈ placedLabels done := by
  rw [← Builder.mem_labelsOf_iff, mem_labelsOf_iff_mem_placedLabels h.layout.placed]

/-- What an event does to a builder: it is taken, or it places a label again. -/
theorem feed_cases (h : b.Inv done) (e : Event) :
    (∃ b', b.feed e = .ok b' ∧ ∀ l, .label l = e → .label l ∉ done)
      ∨ ∃ l, e = .label l ∧ .label l ∈ done ∧ b.feed e = .error (.duplicateLabel l) := by
  have hfound : ∀ l, (b.findLabel? l).isSome ↔ .label l ∈ done := fun l => by
    rw [h.isSome_findLabel?_iff, mem_placedLabels]
  rcases hfeed : b.feed e with err | b'
  · obtain ⟨l, rfl, hl, rfl⟩ := feed_eq_error hfeed
    exact Or.inr ⟨l, rfl, (hfound l).mp hl, rfl⟩
  · refine Or.inl ⟨b', rfl, ?_⟩
    rintro l rfl hl
    simp [Builder.feed, Builder.addLabel, (hfound l).mpr hl] at hfeed

/-- What events do to a builder: all are taken, or the first that repeats a label is refused. -/
theorem feedAll_cases : ∀ (es : List Event) {done : List Event} {b : Builder}, b.Inv done →
    ¬ Repeats done →
    (∃ b', b.feedAll es = .ok b' ∧ ¬ Repeats (done ++ es))
      ∨ ∃ l before after, es = before ++ .label l :: after ∧ .label l ∈ done ++ before
          ∧ ¬ Repeats (done ++ before) ∧ b.feedAll es = .error (.duplicateLabel l)
  | [], done, b, _, hfresh => Or.inl ⟨b, rfl, by rwa [List.append_nil]⟩
  | e :: es, done, b, h, hfresh => by
    rcases h.feed_cases e with ⟨b', hfeed, hnew⟩ | ⟨l, rfl, hl, hfeed⟩
    · have hfresh' : ¬ Repeats (done ++ [e]) := by
        rw [repeats_snoc]
        rintro (hrepeats | ⟨l, hl, hmem⟩)
        · exact hfresh hrepeats
        · exact hnew l hl hmem
      simp only [Builder.feedAll, hfeed]
      rcases feedAll_cases es (h.feed hfeed) hfresh' with
        ⟨b'', hb'', hall⟩ | ⟨l, before, after, rfl, hl, hbefore, herror⟩
      · exact Or.inl ⟨b'', hb'', by rwa [List.append_cons]⟩
      · refine Or.inr ⟨l, e :: before, after, rfl, ?_, ?_, herror⟩
        · rwa [List.append_cons]
        · rwa [List.append_cons]
    · refine Or.inr ⟨l, [], es, rfl, ?_, ?_, ?_⟩
      · rwa [List.append_nil]
      · rwa [List.append_nil]
      · simp only [Builder.feedAll, hfeed]

theorem exists_target_iff (h : b.Inv done) :
    (∃ x ∈ b.graph.blocks, x.target? = some l) ↔ l ∈ jumpTargets done :=
  exists_block_iff_mem_jumpTargets h.layout.opcodes h.layout.closed

/-- The labels that jumps wait for are those that no event has placed. -/
theorem mem_pending_labels (h : b.Inv done) : l ∈ b.pending.labels ↔ Missing done l := by
  rw [missing_iff, ← h.exists_target_iff, ← h.isSome_findLabel?_iff, ← mem_labelsOf_iff,
    PendingJumps.labels, OrdSet.mem_ofList, h.wired.entries_eq, List.mem_map]
  constructor
  · rintro ⟨⟨m, n⟩, hmem, rfl⟩
    obtain ⟨x, hx, hawait⟩ := List.mem_filterMap.mp hmem
    obtain ⟨htarget, hnew, -⟩ := awaited_eq_some.mp hawait
    exact ⟨⟨x, hx, htarget⟩, hnew⟩
  · rintro ⟨⟨x, hx, htarget⟩, hnew⟩
    exact ⟨(l, x.id), List.mem_filterMap.mpr
      ⟨x, hx, awaited_eq_some.mpr ⟨htarget, hnew, rfl⟩⟩, rfl⟩

theorem finish_cases (h : b.Inv done) :
    (b.finish = .ok b.graph.purge ∧ ∀ l, ¬ Missing done l)
      ∨ (b.finish = .error (.unresolvedLabels b.pending.labels.toList)
          ∧ ∃ l, Missing done l) := by
  unfold finish
  rcases hentries : b.pending.entries with _ | ⟨⟨l, n⟩, rest⟩
  · refine Or.inl ⟨by simp [PendingJumps.isEmpty, hentries], fun l => ?_⟩
    rw [← h.mem_pending_labels]
    simp [PendingJumps.labels, hentries]
  · refine Or.inr ⟨by simp [PendingJumps.isEmpty, hentries], l, ?_⟩
    rw [← h.mem_pending_labels]
    simp [PendingJumps.labels, hentries]

end Inv

end Builder

namespace BlockGraph

variable {head : Head} {events : List Event}

theorem build_cases (head : Head) (events : List Event) :
    (∃ l, FirstRepeat events l ∧ build head events = .error (.duplicateLabel l))
      ∨ (¬ Repeats events ∧ ∃ b : Builder, b.Inv events ∧ build head events = b.finish) := by
  have hstart := Builder.Inv.start head
  rcases hstart.feedAll_cases events (by simp [Repeats]) with
    ⟨b, hb, hfresh⟩ | ⟨l, before, after, hsplit, hl, hbefore, herror⟩
  · exact Or.inr ⟨hfresh, b, hstart.feedAll events hb, by rw [build, hb]⟩
  · exact Or.inl ⟨l, ⟨before, after, hsplit, hl, hbefore⟩, by rw [build, herror]⟩

theorem build_eq_duplicateLabel_iff {l : Label} :
    build head events = .error (.duplicateLabel l) ↔ FirstRepeat events l := by
  rcases build_cases head events with ⟨m, hfirst, hbuild⟩ | ⟨hfresh, b, hb, hbuild⟩
  · rw [hbuild]
    constructor
    · intro h
      obtain rfl := BuildError.duplicateLabel.inj (Except.error.inj h)
      exact hfirst
    · intro h
      rw [hfirst.unique h]
  · refine ⟨fun h => ?_, fun h => absurd h.repeats hfresh⟩
    rw [hbuild] at h
    rcases hb.finish_cases with ⟨hfinish, -⟩ | ⟨hfinish, -⟩
    · simp [hfinish] at h
    · simp [hfinish] at h

theorem build_eq_unresolvedLabels_iff {ls : List Label} :
    build head events = .error (.unresolvedLabels ls) ↔ ¬ Repeats events
      ∧ (∃ l, Missing events l) ∧ Ascending ls ∧ ∀ l, l ∈ ls ↔ Missing events l := by
  rcases build_cases head events with ⟨m, hfirst, hbuild⟩ | ⟨hfresh, b, hb, hbuild⟩
  · rw [hbuild]
    exact ⟨fun h => by simp at h, fun h => absurd hfirst.repeats h.1⟩
  · rw [hbuild]
    rcases hb.finish_cases with ⟨hfinish, hnone⟩ | ⟨hfinish, hsome⟩
    · rw [hfinish]
      exact ⟨fun h => by simp at h, fun ⟨_, ⟨l, hl⟩, _⟩ => absurd hl (hnone l)⟩
    · rw [hfinish, Except.error.injEq, BuildError.unresolvedLabels.injEq]
      constructor
      · rintro rfl
        exact ⟨hfresh, hsome, b.pending.labels.ascending, fun l => hb.mem_pending_labels⟩
      · rintro ⟨-, -, hascending, hmem⟩
        exact b.pending.labels.ascending.eq_of_mem_iff hascending fun l =>
          hb.mem_pending_labels.trans (hmem l).symm

theorem exists_build_iff :
    (∃ g, build head events = .ok g) ↔ ¬ Repeats events ∧ ∀ l, ¬ Missing events l := by
  rcases build_cases head events with ⟨m, hfirst, hbuild⟩ | ⟨hfresh, b, hb, hbuild⟩
  · rw [hbuild]
    exact ⟨fun ⟨g, hg⟩ => by simp at hg, fun h => absurd hfirst.repeats h.1⟩
  · rw [hbuild]
    rcases hb.finish_cases with ⟨hfinish, hnone⟩ | ⟨hfinish, l, hl⟩
    · exact ⟨fun _ => ⟨hfresh, hnone⟩, fun _ => ⟨_, hfinish⟩⟩
    · exact ⟨fun ⟨g, hg⟩ => by simp [hfinish] at hg, fun h => absurd hl (h.2 l)⟩

theorem exists_build (head : Head) (hnodup : (placedLabels events).Nodup)
    (htargets : ∀ l ∈ jumpTargets events, l ∈ placedLabels events) :
    ∃ g, build head events = .ok g := by
  refine exists_build_iff.mpr ⟨not_repeats_iff.mpr hnodup, fun l hl => ?_⟩
  obtain ⟨htarget, hnew⟩ := missing_iff.mp hl
  exact hnew (htargets l htarget)

end BlockGraph

/-- Building fails at the first event that repeats a label; without one, it fails with the ascending
list of the labels that jumps name and no event places; and without those, it succeeds. -/
theorem build_outcome (head : Head) (events : List Event) :
    (∀ l, BlockGraph.build head events = .error (.duplicateLabel l) ↔ FirstRepeat events l)
      ∧ ((∃ l, BlockGraph.build head events = .error (.duplicateLabel l)) ↔ Repeats events)
      ∧ (∀ ls, BlockGraph.build head events = .error (.unresolvedLabels ls) ↔
          ¬ Repeats events ∧ (∃ l, Missing events l) ∧ Ascending ls
            ∧ ∀ l, l ∈ ls ↔ Missing events l)
      ∧ ((∃ ls, BlockGraph.build head events = .error (.unresolvedLabels ls)) ↔
          ¬ Repeats events ∧ ∃ l, Missing events l)
      ∧ ((∃ g, BlockGraph.build head events = .ok g) ↔
          ¬ Repeats events ∧ ∀ l, ¬ Missing events l) := by
  refine ⟨fun l => BlockGraph.build_eq_duplicateLabel_iff, ?_,
    fun ls => BlockGraph.build_eq_unresolvedLabels_iff, ?_, BlockGraph.exists_build_iff⟩
  · simp only [BlockGraph.build_eq_duplicateLabel_iff]
    exact exists_firstRepeat_iff
  · simp only [BlockGraph.build_eq_unresolvedLabels_iff]
    constructor
    · rintro ⟨ls, hfresh, hsome, -⟩
      exact ⟨hfresh, hsome⟩
    · rintro ⟨hfresh, hsome⟩
      obtain ⟨ls, hls⟩ := exists_missing_list events
      exact ⟨ls, hfresh, hsome, hls⟩

/-- The second `A` is refused before the jump to `B` is found to lead nowhere. -/
example : BlockGraph.build .blank [.jump .always "B", .label "A", .label "A"]
    = .error (.duplicateLabel "A") := by decide

end SlotColoring
