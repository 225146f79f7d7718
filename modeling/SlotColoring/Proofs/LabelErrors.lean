import SlotColoring.Compile
import SlotColoring.Proofs.BuildOutcome
import SlotColoring.Proofs.ListingSpans

/-!
# The places of label errors

A listing is built from its events as they are without their places (`Listing.feedAll_cases`).  An
event that is refused repeats a label, and it is the first to do so.  If none is refused, the labels
that are still missing at the end are all named by jumps that were read.  The places of events grow,
so the least place of a first use is that of the first jump to a missing label
(`Listing.strayAt_of_missing`).  So an error always points at the event that causes it
(`label_errors_located`).
-/

namespace SlotColoring

namespace Span

theorem before_iff {a b : Span} :
    a.before b = true ↔ a.lo < b.lo ∨ a.lo = b.lo ∧ a.hi < b.hi := by
  simp [before]

theorem first?_eq_none_iff {spans : List Span} : first? spans = none ↔ spans = [] := by
  cases spans with
  | nil => simp [first?]
  | cons a spans =>
    unfold first?
    split <;> simp

/-- The first of some spans is one of them, and none of them is before it. -/
theorem first?_spec : ∀ {spans : List Span} {a : Span}, first? spans = some a →
    a ∈ spans ∧ ∀ b ∈ spans, ¬ b.before a
  | [], a, h => by simp [first?] at h
  | b :: spans, a, h => by
    unfold first? at h
    rcases hrest : first? spans with _ | c
    · rw [hrest] at h
      obtain rfl := Option.some.inj h
      simp [first?_eq_none_iff.mp hrest, before_iff]
    · rw [hrest] at h
      obtain ⟨hmem, hleast⟩ := first?_spec hrest
      obtain rfl := Option.some.inj h
      by_cases hc : c.before b = true
      · rw [if_pos hc]
        refine ⟨List.mem_cons_of_mem _ hmem, List.forall_mem_cons.mpr ⟨?_, hleast⟩⟩
        rw [before_iff] at hc ⊢
        omega
      · rw [if_neg hc]
        refine ⟨List.mem_cons_self, List.forall_mem_cons.mpr ⟨by simp [before_iff], fun d hd => ?_⟩⟩
        have hd := hleast d hd
        rw [before_iff] at hc hd ⊢
        omega

end Span

namespace Listing

variable {l : Listing} {b b' : Builder} {m : Label} {span : Span}

/-- At the span stands the first event that repeats a label, which is `m`. -/
def RepeatAt (l : Listing) (m : Label) (span : Span) : Prop :=
  ∃ before after, l.events = before ++ ⟨.label m, span⟩ :: after
    ∧ .label m ∈ before.map Located.event ∧ ¬ Repeats (before.map Located.event)

/-- At the span stands the first jump to a label that no event places. -/
def StrayAt (l : Listing) (span : Span) : Prop :=
  ∃ before c m after, l.events = before ++ ⟨.jump c m, span⟩ :: after ∧ .label m ∉ l.told
    ∧ ∀ c' m', .jump c' m' ∈ before.map Located.event → .label m' ∈ l.told

/-- The place that an error should be about. -/
def Blames (l : Listing) : BuildError → Span → Prop
  | .duplicateLabel m, span => l.RepeatAt m span
  | .unresolvedLabels _, span => l.StrayAt span

/-- Places do not change what becomes of events, and an error gets that of the event refused. -/
theorem feedAll_cases : ∀ (es : List Located) (b : Builder),
    (∃ b', feedAll b es = .ok b' ∧ b.feedAll (es.map Located.event) = .ok b')
      ∨ ∃ before e after b' cause, es = before ++ e :: after
          ∧ b.feedAll (before.map Located.event) = .ok b' ∧ b'.feed e.event = .error cause
          ∧ feedAll b es = .error ⟨.build cause, e.span⟩
          ∧ b.feedAll (es.map Located.event) = .error cause
  | [], b => Or.inl ⟨b, rfl, rfl⟩
  | e :: es, b => by
    rcases hfeed : b.feed e.event with cause | b'
    · exact Or.inr ⟨[], e, es, b, cause, rfl, rfl, hfeed, by simp [feedAll, hfeed],
        by simp [Builder.feedAll, hfeed]⟩
    · rcases feedAll_cases es b' with ⟨b'', hlocated, hbare⟩
        | ⟨before, e', after, b'', cause, rfl, hbefore, hrefused, hlocated, hbare⟩
      · exact Or.inl ⟨b'', by simpa [feedAll, hfeed], by simpa [Builder.feedAll, hfeed]⟩
      · refine Or.inr ⟨e :: before, e', after, b'', cause, rfl, ?_, hrefused, ?_, ?_⟩
        · simpa [Builder.feedAll, hfeed] using hbefore
        · simpa [feedAll, hfeed] using hlocated
        · simpa [Builder.feedAll, hfeed] using hbare

theorem repeatAt_of_refused {before after : List Located} {e : Located} {cause : BuildError}
    (hevents : l.events = before ++ e :: after)
    (hbefore : (Builder.start l.head).feedAll (before.map Located.event) = .ok b)
    (hrefused : b.feed e.event = .error cause) :
    ∃ m, cause = .duplicateLabel m ∧ l.RepeatAt m e.span := by
  have hstart := Builder.Inv.start l.head
  have hinv : b.Inv (before.map Located.event) := hstart.feedAll _ hbefore
  have hfresh : ¬ Repeats (before.map Located.event) := by
    rcases hstart.feedAll_cases (before.map Located.event) (by simp [Repeats]) with
      ⟨_, _, hfresh⟩ | ⟨_, _, _, _, _, _, herror⟩
    · exact hfresh
    · simp [hbefore] at herror
  rcases hinv.feed_cases e.event with ⟨b', hok, -⟩ | ⟨m, hlabel, hmem, herror⟩
  · simp [hok] at hrefused
  · rw [herror] at hrefused
    refine ⟨m, (Except.error.inj hrefused).symm, before, after, ?_, hmem, hfresh⟩
    rw [hevents, ← hlabel]

section FirstUse

theorem firstUse?_ne_none {c : Condition} (h : .jump c m ∈ l.told) : l.firstUse? m ≠ none := by
  obtain ⟨e, he, hevent⟩ := List.mem_map.mp h
  unfold firstUse?
  rw [Ne, Option.map_eq_none_iff, List.find?_eq_none]
  intro hnone
  simpa [hevent] using hnone e he

theorem firstUse?_eq_some (h : l.firstUse? m = some span) : ∃ before c after,
    l.events = before ++ ⟨.jump c m, span⟩ :: after := by
  obtain ⟨e, he, rfl⟩ := Option.map_eq_some_iff.mp h
  obtain ⟨hjump, before, after, hevents, -⟩ := List.find?_eq_some_iff_append.mp he
  rcases e with ⟨_ | _ | ⟨c, m'⟩, span⟩
  · simp at hjump
  · simp at hjump
  · obtain rfl : m' = m := by simpa using hjump
    exact ⟨before, c, after, hevents⟩

/-- A label that is used among the first events is used there first. -/
theorem firstUse?_of_before {before after : List Located} {c : Condition}
    (hevents : l.events = before ++ after) (h : .jump c m ∈ before.map Located.event) :
    ∃ e ∈ before, l.firstUse? m = some e.span := by
  obtain ⟨e, he, hevent⟩ := List.mem_map.mp h
  unfold firstUse?
  rw [hevents, List.find?_append]
  rcases hfind : before.find? _ with _ | e'
  · have hnone := List.find?_eq_none.mp hfind e he
    simp [hevent] at hnone
  · exact ⟨e', List.mem_of_find?_eq_some hfind, rfl⟩

end FirstUse

/-- A listing that was read holds its jumps as events, at places that grow. -/
structure AsRead (l : Listing) : Prop where
  jumps : ∀ c m, .emit (.jump c m) ∉ l.told
  ordered : l.events.Pairwise fun a b => a.span.lo < b.span.lo

theorem asRead_of_parse {src : String} (h : parse src = .ok l) : AsRead l where
  jumps := fun c m hmem => by simpa [Event.asRead] using (legible_of_parse h _ hmem).2
  ordered := (ordered_of_parse h).imp And.left

/-- The least place of a first use of a missing label is that of the first jump to one. -/
theorem strayAt_of_missing {ls : List Label} (h : AsRead l) (hsome : ∃ m, Missing l.told m)
    (hls : ∀ m, m ∈ ls ↔ Missing l.told m) :
    ∃ span, Span.first? (ls.filterMap l.firstUse?) = some span ∧ l.StrayAt span := by
  obtain ⟨m₀, hm₀⟩ := hsome
  have hnonempty : ls.filterMap l.firstUse? ≠ [] := by
    obtain ⟨c, hjump | hemit⟩ := hm₀.1
    · obtain ⟨span, hspan⟩ := Option.ne_none_iff_exists'.mp (firstUse?_ne_none hjump)
      exact List.ne_nil_of_mem (List.mem_filterMap.mpr ⟨m₀, (hls m₀).mpr hm₀, hspan⟩)
    · exact absurd hemit (h.jumps c m₀)
  obtain ⟨span, hspan⟩ := Option.ne_none_iff_exists'.mp (Span.first?_eq_none_iff.not.mpr hnonempty)
  obtain ⟨hmem, hleast⟩ := Span.first?_spec hspan
  obtain ⟨m, hm, huse⟩ := List.mem_filterMap.mp hmem
  obtain ⟨before, c, after, hevents⟩ := firstUse?_eq_some huse
  refine ⟨span, hspan, before, c, m, after, hevents, ((hls m).mp hm).2, fun c' m' hjump => ?_⟩
  -- an earlier jump to a missing label would make for an earlier place
  by_contra hnew
  have htold : .jump c' m' ∈ l.told := by
    rw [told, hevents, List.map_append]
    exact List.mem_append_left _ hjump
  obtain ⟨e, he, huse'⟩ := firstUse?_of_before hevents hjump
  have hfirst := hleast e.span
    (List.mem_filterMap.mpr ⟨m', (hls m').mpr ⟨⟨c', Or.inl htold⟩, hnew⟩, huse'⟩)
  have hlt : e.span.lo < span.lo := by
    have hordered := h.ordered
    rw [hevents] at hordered
    exact (List.pairwise_append.mp hordered).2.2 e he _ List.mem_cons_self
  exact hfirst (Span.before_iff.mpr (Or.inl hlt))

theorem finish_cases (h : AsRead l) (hb : (Builder.start l.head).feedAll l.told = .ok b) :
    (∃ g, b.finish = .ok g) ∨ ∃ ls span, b.finish = .error (.unresolvedLabels ls)
      ∧ Span.first? (ls.filterMap l.firstUse?) = some span ∧ l.StrayAt span := by
  have hinv : b.Inv l.told := (Builder.Inv.start l.head).feedAll _ hb
  rcases hinv.finish_cases with ⟨hfinish, -⟩ | ⟨hfinish, hsome⟩
  · exact Or.inl ⟨_, hfinish⟩
  · obtain ⟨span, hspan, hstray⟩ := strayAt_of_missing h hsome fun m => hinv.mem_pending_labels
    exact Or.inr ⟨_, span, hfinish, hspan, hstray⟩

/-- Building with and without places comes to the same graph or to the same error. -/
theorem build_cases (h : AsRead l) :
    (∃ g, l.build = .ok g ∧ BlockGraph.build l.head l.told = .ok g)
      ∨ ∃ cause span, l.build = .error ⟨.build cause, span⟩
          ∧ BlockGraph.build l.head l.told = .error cause ∧ l.Blames cause span := by
  unfold build BlockGraph.build
  rcases feedAll_cases l.events (.start l.head) with ⟨b, hlocated, hbare⟩
    | ⟨before, e, after, b, cause, hevents, hbefore, hrefused, hlocated, hbare⟩
  · rw [hlocated, told, hbare]
    rcases finish_cases h hbare with ⟨g, hfinish⟩ | ⟨ls, span, hfinish, hspan, hstray⟩
    · exact Or.inl ⟨g, by simp [hfinish], hfinish⟩
    · exact Or.inr ⟨_, span, by simp [hfinish, blame, hspan], hfinish, hstray⟩
  · obtain ⟨m, rfl, hrepeat⟩ := repeatAt_of_refused hevents hbefore hrefused
    rw [hlocated, told, hbare]
    exact Or.inr ⟨_, e.span, rfl, rfl, hrepeat⟩

theorem feedAll_told (hb : feedAll b l.events = .ok b') : b.feedAll l.told = .ok b' := by
  rcases feedAll_cases l.events b with ⟨b'', hlocated, hbare⟩ | ⟨_, _, _, _, _, _, _, _, herror, _⟩
  · rw [hb] at hlocated
    obtain rfl := Except.ok.inj hlocated
    exact hbare
  · simp [hb] at herror

/-- Once all events are taken, an error is about missing labels, and one of them has a first use. -/
theorem finish_eq_error {c : BuildError} (h : AsRead l)
    (hb : feedAll (.start l.head) l.events = .ok b) (hc : b.finish = .error c) :
    ∃ ls span, c = .unresolvedLabels ls ∧ Span.first? (ls.filterMap l.firstUse?) = some span := by
  rcases finish_cases h (feedAll_told hb) with ⟨g, hfinish⟩ | ⟨ls, span, hfinish, hspan, -⟩
  · simp [hfinish] at hc
  · exact ⟨ls, span, Except.error.inj (hc.symm.trans hfinish), hspan⟩

end Listing

/-- A listing that was read is built exactly if its events are, with the same graph, and fails with
the same error.  The error is at the first event that repeats a label, or at the first jump to a
label that no event places; so no error falls back on the place of the last event. -/
theorem label_errors_located {src : String} {l : Listing} (h : Listing.parse src = .ok l) :
    (∀ g, l.build = .ok g ↔ BlockGraph.build l.head l.told = .ok g)
      ∧ (∀ g t, Listing.read src = .ok (g, t) ↔
          BlockGraph.build l.head l.told = .ok g ∧ t = l.symbols)
      ∧ (∀ cause, BlockGraph.build l.head l.told = .error cause ↔
          ∃ span, l.build = .error ⟨.build cause, span⟩)
      ∧ (∀ cause span, l.build = .error ⟨.build cause, span⟩ → l.Blames cause span)
      ∧ ∀ b cause, Listing.feedAll (.start l.head) l.events = .ok b → b.finish = .error cause →
          ∃ ls span, cause = .unresolvedLabels ls
            ∧ Span.first? (ls.filterMap l.firstUse?) = some span := by
  have hread := Listing.asRead_of_parse h
  unfold Listing.read
  rw [h]
  rcases Listing.build_cases hread with ⟨g, hbuild, hbare⟩ | ⟨cause, span, hbuild, hbare, hblames⟩
  · simp only [hbuild, hbare]
    refine ⟨by simp, fun g' t => ?_, by simp, by simp, fun _ _ => Listing.finish_eq_error hread⟩
    simp [eq_comm]
  · simp only [hbuild, hbare]
    refine ⟨by simp, by simp, by simp, fun cause' span' heq => ?_,
      fun _ _ => Listing.finish_eq_error hread⟩
    simp only [Except.error.injEq, ListingError.mk.injEq, ListingFault.build.injEq] at heq
    rwa [← heq.1, ← heq.2]

/-- A listing that jumps to `Z`, to `Y` and to `Z` again, and places neither. -/
def strayJumps : String := "X: goto Z ; out\n  ifeq Y\n goto Z"

/-- What is read from `strayJumps`. -/
def strayJumpsListing : Listing where
  head := ⟨"", "", 0, 1⟩
  symbols := ∅
  events := [⟨.label "X", ⟨0, 2⟩⟩, ⟨.jump .always "Z", ⟨3, 9⟩⟩, ⟨.jump (.zero .eq) "Y", ⟨18, 24⟩⟩,
    ⟨.jump .always "Z", ⟨26, 32⟩⟩]

/-- The error names `Y` before `Z`, but the jump to `Z` comes first. -/
theorem label_errors_located_strayJumps : Listing.parse strayJumps = .ok strayJumpsListing
    ∧ strayJumpsListing.build = .error ⟨.build (.unresolvedLabels ["Y", "Z"]), ⟨3, 9⟩⟩
    ∧ strayJumpsListing.StrayAt ⟨3, 9⟩ := by
  have hl : Listing.parse strayJumps = .ok strayJumpsListing := rfl
  have hbuild : strayJumpsListing.build
      = .error ⟨.build (.unresolvedLabels ["Y", "Z"]), ⟨3, 9⟩⟩ := by decide
  exact ⟨hl, hbuild, (label_errors_located hl).2.2.2.1 _ _ hbuild⟩

end SlotColoring
