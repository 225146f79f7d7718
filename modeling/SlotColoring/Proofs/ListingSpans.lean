import SlotColoring.Proofs.CheckedReading

/-!
# The places in a listing

A place is counted in bytes from the start of the source, line by line (`Marks`).  What a line adds
to a draft stands in that line, one event after the other, and each event's place holds a neat text
that gives the same event when it is read alone (`Gives`, `Draft.readLine_ok`).  The place of a
fault holds what the line says, but for a label in front (`Excerpt`, `Draft.readLine_error`).  From
line to line the places only grow, so all of this holds for the whole source
(`listing_spans_exact`).
-/

namespace SlotColoring

open Text

namespace Listing

variable {text line : List Char} {d d' : Draft} {start lo : Nat} {e : Event} {err : ListingError}

section Places

/-- Counted from `start` at the first of the characters, the span is that of a part of them. -/
def Marks (span : Span) (start : Nat) (cs text : List Char) : Prop :=
  ∃ before after, cs = before ++ text ++ after
    ∧ span = ⟨start + byteCount before, start + byteCount (before ++ text)⟩

variable {span : Span} {cs ds : List Char}

namespace Marks

theorem whole (start : Nat) (cs : List Char) : Marks ⟨start, start + byteCount cs⟩ start cs cs :=
  ⟨[], [], by simp, by simp⟩

theorem append_right (h : Marks span start cs text) (ds : List Char) :
    Marks span start (cs ++ ds) text := by
  obtain ⟨before, after, rfl, hspan⟩ := h
  exact ⟨before, after ++ ds, by simp, hspan⟩

theorem append_left (h : Marks span (start + byteCount ds) cs text) :
    Marks span start (ds ++ cs) text := by
  obtain ⟨before, after, rfl, rfl⟩ := h
  exact ⟨ds ++ before, after, by simp, by simp [Nat.add_assoc]⟩

theorem bounds (h : Marks span start cs text) :
    start ≤ span.lo ∧ span.lo + byteCount text = span.hi ∧ span.hi ≤ start + byteCount cs := by
  obtain ⟨before, after, rfl, rfl⟩ := h
  simp only [byteCount_append]
  omega

end Marks

/-- The event is read from the text.  It is what the text says when it is read alone, unless it is
an instruction with a dot in front. -/
structure ReadFrom (text : List Char) (e : Event) : Prop where
  neat : Neat text
  alone : e.isDotted = false →
    parse (String.ofList text) = .ok ⟨⟨"", "", 0, 1⟩, ∅, [⟨e, ⟨0, byteCount text⟩⟩]⟩

theorem parse_neat (h : Neat text)
    (hread : Draft.blank.readText text 0 = .ok (Draft.blank.addEvent e ⟨0, 0 + byteCount text⟩)) :
    parse (String.ofList text) = .ok ⟨⟨"", "", 0, 1⟩, ∅, [⟨e, ⟨0, byteCount text⟩⟩]⟩ := by
  have hcontent : content text = text := by
    rw [content, stripComment_of_uncommented h.uncommented, trimStart_eq_self h.starts,
      trimEnd_eq_self h.ends]
  have hindent : byteCount (indentOf text) = 0 := by
    have hsizes := byteCount_trimStart text
    rw [trimStart_eq_self h.starts] at hsizes
    rw [indentOf, stripComment_of_uncommented h.uncommented]
    omega
  have hlines : Draft.blank.readLines 0 [text]
      = .ok (Draft.blank.addEvent e ⟨0, 0 + byteCount text⟩) := by
    rw [Draft.readLines, Draft.readLine_eq, hcontent, hindent, Nat.add_zero, hread]
    rfl
  rw [parse, String.toList_ofList, lines_of_oneLine h.nonempty h.oneLine, hlines, Nat.zero_add]
  rfl

theorem readFrom_label {l : Label} (h : (Event.label l).Legible) :
    ReadFrom (l.toList ++ [':']) (.label l) := by
  have hneat := neat_of_isToken (isToken_of_legible h)
  exact ⟨hneat, fun _ => parse_neat hneat (Draft.readText_label h)⟩

/-- A mnemonic with a dot in front is none of those that stand for loads, stores and jumps. -/
theorem isPlain_of_dotted {m : String} (hdot : m.toList.head? = some '.') : IsPlain m := by
  refine ⟨?_, List.find?_eq_none.mpr fun c _ hm => ?_, ?_, ?_⟩
  · unfold shortForm?
    split <;> simp at hdot ⊢
  · rw [← eq_of_beq hm] at hdot
    exact c.isToken_mnemonic.2.2.1 hdot
  · rintro rfl
    simp at hdot
  · rintro rfl
    simp at hdot

theorem isDotted_of_readInstruction {m : String} {operands : List String}
    (hdot : m.toList.head? = some '.') (h : readInstruction m operands = .ok e) :
    e.isDotted = true := by
  obtain ⟨hshort, hcond, hload, hstore⟩ := isPlain_of_dotted hdot
  have hcolon := (readInstruction_ok h).1
  have hother : readInstruction m operands = .ok (.emit (.other m operands)) := by
    simp [readInstruction, hcolon, hshort, hcond]
  obtain rfl := Except.ok.inj (hother.symm.trans h)
  simp [Event.isDotted, hdot]

theorem Draft.readInstructionAt_ok_iff {w : List Char} {ws : List (List Char)} {span : Span} :
    d.readInstructionAt (w :: ws) span = .ok d' ↔
      ∃ e, readInstruction (String.ofList w) (ws.map String.ofList) = .ok e
        ∧ d' = d.addEvent e span := by
  rcases he : readInstruction (String.ofList w) (ws.map String.ofList) with fault | e
  · simp [readInstructionAt, he]
  · simp [readInstructionAt, he, eq_comm]

/-- What is read from the words of a neat text is read from the text. -/
theorem readFrom_instruction {span : Span} (h : Neat text)
    (hd : d.readInstructionAt (words text) span = .ok d') :
    ∃ e, d' = d.addEvent e span ∧ ReadFrom text e := by
  obtain ⟨w, ws, hwords, hhead⟩ := h.exists_words
  rw [hwords] at hd
  obtain ⟨e, he, rfl⟩ := Draft.readInstructionAt_ok_iff.mp hd
  refine ⟨e, rfl, h, fun hplain => parse_neat h ?_⟩
  have hcolon := (readInstruction_ok he).1
  rw [String.toList_ofList] at hcolon
  have hdot : text.head? ≠ some '.' := fun hdot => by
    have := isDotted_of_readInstruction (by rwa [String.toList_ofList, hhead]) he
    simp [this] at hplain
  have hbare : ¬ Labelled text := fun hlabelled => by
    obtain ⟨l, rest, hlabel⟩ := words_of_labelled hlabelled
    rw [hwords] at hlabel
    simp [(List.cons.inj hlabel).1] at hcolon
  rw [Draft.readText_instruction h hdot hbare, hwords]
  exact Draft.readInstructionAt_ok_iff.mpr ⟨e, he, rfl⟩

/-- The events stand in the text one after the other, and each is read from its place there. -/
structure Gives (start : Nat) (cs : List Char) (new : List Located) : Prop where
  placed : ∀ e ∈ new, ∃ text, Marks e.span start cs text ∧ ReadFrom text e.event
  ordered : new.Pairwise fun a b => a.span.hi ≤ b.span.lo

namespace Gives

variable {new later : List Located}

theorem nil : Gives start cs [] := ⟨by simp, List.Pairwise.nil⟩

theorem append (h : Gives start cs new) (h' : Gives (start + byteCount cs) ds later) :
    Gives start (cs ++ ds) (new ++ later) := by
  refine ⟨fun e he => ?_, List.pairwise_append.mpr ⟨h.ordered, h'.ordered, fun a ha b hb => ?_⟩⟩
  · rcases List.mem_append.mp he with he | he
    · obtain ⟨text, hmarks, hread⟩ := h.placed e he
      exact ⟨text, hmarks.append_right ds, hread⟩
    · obtain ⟨text, hmarks, hread⟩ := h'.placed e he
      exact ⟨text, hmarks.append_left, hread⟩
  · obtain ⟨text, hmarks, -⟩ := h.placed a ha
    obtain ⟨text', hmarks', -⟩ := h'.placed b hb
    have := hmarks.bounds
    have := hmarks'.bounds
    omega

theorem widen (before after : List Char) (h : Gives (start + byteCount before) cs new) :
    Gives start (before ++ cs ++ after) new := by
  refine ⟨fun e he => ?_, h.ordered⟩
  obtain ⟨text, hmarks, hread⟩ := h.placed e he
  exact ⟨text, hmarks.append_left.append_right after, hread⟩

theorem single {span : Span} (h : Marks span start cs text) (hread : ReadFrom text e) :
    Gives start cs [⟨e, span⟩] :=
  ⟨by simpa using ⟨text, h, hread⟩, List.pairwise_singleton _ _⟩

end Gives

namespace Draft

/-- A directive adds no event, or its fault is at its own place. -/
theorem readDirectiveAt_cases (d : Draft) (name : String) (operands : List String) (span : Span) :
    (∃ d', d.readDirectiveAt name operands span = .ok d' ∧ d'.events = d.events)
      ∨ ∃ fault, d.readDirectiveAt name operands span = .error ⟨fault, span⟩ := by
  unfold readDirectiveAt
  rcases readDirective name operands with fault | directive
  · exact Or.inr ⟨fault, rfl⟩
  · rcases happly : d.apply directive with fault | d'
    · exact Or.inr ⟨fault, by simp [happly]⟩
    · exact Or.inl ⟨d', by simp [happly], events_apply happly⟩

theorem readText_ok (h : Neat text) (hd : d.readText text lo = .ok d') :
    ∃ new, d'.events = d.events ++ new ∧ Gives lo text new := by
  cases h.shape with
  | directive _ hdot =>
    obtain ⟨name, operands, hread⟩ := readText_directive (d := d) h hdot
    rw [hread] at hd
    rcases d.readDirectiveAt_cases name operands ⟨lo, lo + byteCount text⟩ with
      ⟨d₁, hok, hevents⟩ | ⟨fault, herror⟩
    · obtain rfl := Except.ok.inj (hok.symm.trans hd)
      exact ⟨[], by rw [hevents, List.append_nil], .nil⟩
    · simp [herror] at hd
  | label hl =>
    rw [readText_label hl] at hd
    obtain rfl := Except.ok.inj hd
    exact ⟨[⟨.label _, _⟩], rfl, .single (.whole _ _) (readFrom_label hl)⟩
  | @labelled l gap rest hl hgap hblank hneat =>
    rw [readText_labelled hl hgap hblank hneat] at hd
    obtain ⟨e, rfl, hread⟩ := readFrom_instruction hneat hd
    have hlabel := Gives.single (.whole lo (l.toList ++ [':'])) (readFrom_label hl)
    have hinstruction :=
      Gives.single (.whole (lo + byteCount (l.toList ++ [':'] ++ gap)) rest) hread
    rw [Nat.add_assoc, ← byteCount_append] at hinstruction
    exact ⟨_, by simp [addEvent], (hlabel.append .nil).append hinstruction⟩
  | instruction _ hdot hbare =>
    rw [readText_instruction h hdot hbare] at hd
    obtain ⟨e, rfl, hread⟩ := readFrom_instruction h hd
    exact ⟨[⟨e, _⟩], rfl, .single (.whole _ _) hread⟩

theorem readLine_ok (hfeed : '\n' ∉ line.dropLast) (hd : d.readLine line start = .ok d') :
    ∃ new, d'.events = d.events ++ new ∧ Gives start line new := by
  rw [readLine_eq] at hd
  by_cases hempty : content line = []
  · rw [hempty, readText_nil] at hd
    obtain rfl := Except.ok.inj hd
    exact ⟨[], by simp, .nil⟩
  · obtain ⟨new, hnew, hgives⟩ := readText_ok (neat_content hfeed hempty) hd
    obtain ⟨tail, -, hline⟩ := exists_tail hempty
    refine ⟨new, hnew, ?_⟩
    rw [hline]
    exact hgives.widen (indentOf line) tail

/-- The events of some lines stand in these lines, one after the other. -/
theorem readLines_ok : ∀ {ls : List (List Char)} {d : Draft} {start : Nat},
    (∀ line ∈ ls, '\n' ∉ line.dropLast) → d.readLines start ls = .ok d' →
    ∃ new, d'.events = d.events ++ new ∧ Gives start ls.flatten new
  | [], d, start, _, hd => by
    obtain rfl := Except.ok.inj hd
    exact ⟨[], by simp, .nil⟩
  | line :: ls, d, start, hfeed, hd => by
    unfold readLines at hd
    rcases hline : d.readLine line start with err | d₁
    · simp [hline] at hd
    · rw [hline] at hd
      obtain ⟨new, hnew, hgives⟩ := readLine_ok (hfeed line (by simp)) hline
      obtain ⟨later, hlater, hgives'⟩ :=
        readLines_ok (fun l hl => hfeed l (List.mem_cons_of_mem _ hl)) hd
      exact ⟨new ++ later, by rw [hlater, hnew, List.append_assoc], hgives.append hgives'⟩

end Draft

end Places

section Faults

/-- The text is what a line says: around it are blanks and at the end a comment, and a label that
the line begins with is left out with the blanks after it. -/
structure Excerpt (lead text tail : List Char) : Prop where
  neat : Neat text
  lead : ((∀ c ∈ lead, isBlank c = true) ∧ ¬ Labelled text)
    ∨ ∃ (indent : List Char) (l : Label) (gap : List Char),
        lead = indent ++ (l.toList ++ [':'] ++ gap) ∧ (∀ c ∈ indent, isBlank c = true)
          ∧ (Event.label l).Legible ∧ gap ≠ [] ∧ ∀ c ∈ gap, isBlank c = true
  tail : IsTail tail

/-- Counted from `start` at the first line, the span is that of what one of the lines says. -/
def MarksExcerpt (span : Span) (start : Nat) (ls : List (List Char)) : Prop :=
  ∃ before line after lead text tail, ls = before ++ line :: after ∧ line = lead ++ text ++ tail
    ∧ span = ⟨start + byteCount (before.flatten ++ lead),
        start + byteCount (before.flatten ++ lead ++ text)⟩ ∧ Excerpt lead text tail

namespace Draft

theorem span_readInstructionAt {ws : List (List Char)} {span : Span}
    (hd : d.readInstructionAt ws span = .error err) : err.span = span := by
  unfold readInstructionAt at hd
  split at hd
  · simp at hd
  · split at hd
    · rw [← Except.error.inj hd]
    · simp at hd

theorem readText_error {indent tail : List Char} (h : Neat text)
    (hd : d.readText text lo = .error err) (hindent : ∀ c ∈ indent, isBlank c = true)
    (htail : IsTail tail) : ∃ lead part, text = lead ++ part
      ∧ err.span = ⟨lo + byteCount lead, lo + byteCount text⟩
      ∧ Excerpt (indent ++ lead) part tail := by
  cases h.shape with
  | directive _ hdot =>
    obtain ⟨name, operands, hread⟩ := readText_directive (d := d) h hdot
    rw [hread] at hd
    rcases d.readDirectiveAt_cases name operands ⟨lo, lo + byteCount text⟩ with
      ⟨d₁, hok, -⟩ | ⟨fault, herror⟩
    · simp [hok] at hd
    · obtain rfl := Except.error.inj (herror.symm.trans hd)
      have hbare : ¬ Labelled text := fun hlabelled => head?_of_labelled hlabelled hdot
      exact ⟨[], text, rfl, rfl, h, Or.inl ⟨by rwa [List.append_nil], hbare⟩, htail⟩
  | label hl =>
    rw [readText_label hl] at hd
    simp at hd
  | @labelled l gap rest hl hgap hblank hneat =>
    rw [readText_labelled hl hgap hblank hneat] at hd
    exact ⟨l.toList ++ [':'] ++ gap, rest, rfl, span_readInstructionAt hd, hneat,
      Or.inr ⟨indent, l, gap, rfl, hindent, hl, hgap, hblank⟩, htail⟩
  | instruction _ hdot hbare =>
    rw [readText_instruction h hdot hbare] at hd
    refine ⟨[], text, rfl, span_readInstructionAt hd, h, Or.inl ⟨?_, hbare⟩, htail⟩
    rwa [List.append_nil]

theorem readLine_error (hfeed : '\n' ∉ line.dropLast) (hd : d.readLine line start = .error err) :
    ∃ lead text tail, line = lead ++ text ++ tail ∧ Excerpt lead text tail
      ∧ err.span = ⟨start + byteCount lead, start + byteCount (lead ++ text)⟩ := by
  rw [readLine_eq] at hd
  by_cases hempty : content line = []
  · simp [hempty, readText_nil] at hd
  · obtain ⟨tail, htail, hline⟩ := exists_tail hempty
    obtain ⟨lead, part, hpart, hspan, hexcerpt⟩ :=
      readText_error (neat_content hfeed hempty) hd isBlank_of_mem_indentOf htail
    refine ⟨indentOf line ++ lead, part, tail, ?_, hexcerpt, ?_⟩
    · rw [List.append_assoc (indentOf line), ← hpart, ← hline]
    · rw [hspan, List.append_assoc (indentOf line), ← hpart, byteCount_append, byteCount_append,
        Nat.add_assoc, Nat.add_assoc]

/-- Reading lines fails at one of them. -/
theorem readLines_error : ∀ {ls : List (List Char)} {d : Draft} {start : Nat},
    (∀ line ∈ ls, '\n' ∉ line.dropLast) → d.readLines start ls = .error err →
    MarksExcerpt err.span start ls
  | [], d, start, _, hd => by simp [readLines] at hd
  | line :: ls, d, start, hfeed, hd => by
    unfold readLines at hd
    rcases hline : d.readLine line start with err' | d₁
    · rw [hline] at hd
      obtain rfl := Except.error.inj hd
      obtain ⟨lead, text, tail, hsplit, hexcerpt, hspan⟩ :=
        readLine_error (hfeed line (by simp)) hline
      exact ⟨[], line, ls, lead, text, tail, rfl, hsplit, hspan, hexcerpt⟩
    · rw [hline] at hd
      obtain ⟨before, line', after, lead, text, tail, rfl, hsplit, hspan, hexcerpt⟩ :=
        readLines_error (fun l hl => hfeed l (List.mem_cons_of_mem _ hl)) hd
      refine ⟨line :: before, line', after, lead, text, tail, rfl, hsplit, ?_, hexcerpt⟩
      simp [hspan, Nat.add_assoc]

end Draft

end Faults

end Listing

open Listing

/-- The span of an event is that of a neat text in the source, and the text alone is read as the
event, unless that is an instruction with a dot in front. -/
def SpanExact (src : String) (e : Located) : Prop :=
  ∃ before text after, src.toList = before ++ text ++ after
    ∧ e.span = ⟨byteCount before, byteCount (before ++ text)⟩ ∧ e.span.lo < e.span.hi
    ∧ e.span.hi ≤ src.utf8ByteSize ∧ Neat text ∧ (e.event.isDotted = false →
      parse (String.ofList text) = .ok ⟨⟨"", "", 0, 1⟩, ∅, [⟨e.event, ⟨0, byteCount text⟩⟩]⟩)

/-- The span of a fault is that of what a line of the source says. -/
def FaultExact (src : String) (span : Span) : Prop :=
  span.lo < span.hi ∧ span.hi ≤ src.utf8ByteSize ∧ ∃ before line after lead text tail,
    lines src.toList = before ++ line :: after ∧ line = lead ++ text ++ tail
      ∧ span = ⟨byteCount (before.flatten ++ lead), byteCount (before.flatten ++ lead ++ text)⟩
      ∧ Excerpt lead text tail

theorem spans_of_parse {src : String} {l : Listing} (h : parse src = .ok l) :
    Gives 0 src.toList l.events := by
  unfold parse at h
  rcases hd : Draft.blank.readLines 0 (lines src.toList) with err | d
  · simp [hd] at h
  · rw [hd] at h
    obtain rfl := Except.ok.inj h
    obtain ⟨new, hnew, hgives⟩ := Draft.readLines_ok
      (fun line hline => (lineFeed_not_mem_dropLast hline).2) hd
    rw [flatten_lines] at hgives
    rwa [← show d.events = new from hnew] at hgives

theorem ordered_of_parse {src : String} {l : Listing} (h : parse src = .ok l) :
    l.events.Pairwise fun a b => a.span.lo < b.span.lo ∧ a.span.hi ≤ b.span.lo := by
  have hgives := spans_of_parse h
  refine hgives.ordered.imp_of_mem fun {a b} ha _ hab => ⟨?_, hab⟩
  obtain ⟨text, hmarks, hread⟩ := hgives.placed a ha
  have hbounds := hmarks.bounds
  have hpos := byteCount_pos hread.neat.nonempty
  omega

theorem fault_of_parse {src : String} {err : ListingError} (h : parse src = .error err) :
    MarksExcerpt err.span 0 (lines src.toList) := by
  unfold parse at h
  rcases hd : Draft.blank.readLines 0 (lines src.toList) with err' | d
  · rw [hd] at h
    obtain rfl := Except.error.inj h
    exact Draft.readLines_error (fun line hline => (lineFeed_not_mem_dropLast hline).2) hd
  · simp [hd] at h

/-- Reading never fails on a cut or a difference.  The spans of the events that are read are exact,
grow and do not overlap, and the span of a fault is exact as well. -/
theorem listing_spans_exact (src : String) :
    parseChecked src = some (parse src)
      ∧ (∀ l, parse src = .ok l → (∀ e ∈ l.events, SpanExact src e)
          ∧ l.events.Pairwise fun a b => a.span.lo < b.span.lo ∧ a.span.hi ≤ b.span.lo)
      ∧ ∀ err, parse src = .error err → FaultExact src err.span := by
  refine ⟨parseChecked_eq src, fun l hl => ⟨fun e he => ?_, ordered_of_parse hl⟩,
    fun err herr => ?_⟩
  · obtain ⟨text, hmarks, hread⟩ := (spans_of_parse hl).placed e he
    have hbounds := hmarks.bounds
    have hpos := byteCount_pos hread.neat.nonempty
    rw [byteCount_toList] at hbounds
    obtain ⟨before, after, hsrc, hspan⟩ := hmarks
    exact ⟨before, text, after, hsrc, by simpa using hspan, by omega, by omega, hread.neat,
      hread.alone⟩
  · obtain ⟨before, line, after, lead, text, tail, hlines, hline, hspan, hexcerpt⟩ :=
      fault_of_parse herr
    have hpos := byteCount_pos hexcerpt.neat.nonempty
    have hsize := congrArg byteCount (flatten_lines src.toList)
    rw [hlines, hline, byteCount_toList] at hsize
    simp only [List.flatten_append, List.flatten_cons, byteCount_append] at hsize
    rw [hspan]
    refine ⟨?_, ?_, before, line, after, lead, text, tail, hlines, hline, by simp, hexcerpt⟩
    · simp only [byteCount_append]
      omega
    · simp only [byteCount_append]
      omega

end SlotColoring
