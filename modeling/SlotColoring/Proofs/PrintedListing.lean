import Mathlib.Data.List.Forall2
import SlotColoring.Proofs.PrintedEvents

/-!
# Printing a whole listing and reading it

A page shows a listing: the directives of the frame, one `.var` for each variable in any order, and
the events on rows, where a label may share its row with the instruction after it.  Every line may
be indented and end in a comment (`Margin`).  The words of such a line are those of its content
(`isLine_around`), so reading goes from draft to draft by the content alone: the frame, the table
binding by binding (`tellAll_vars`) and the events row by row (`tellAll_rows`).  Whatever is read,
the names of the variables are tokens (`named_of_parse`).  So exactly the tables whose names are
tokens survive.
-/

namespace SlotColoring

open Text Listing

section Pages

/-- Blanks that stay on their line. -/
structure Blanks where
  text : String
  blank : ∀ c ∈ text.toList, isBlank c = true
  oneLine : '\n' ∉ text.toList

/-- What stands around the content of a line. -/
structure Margin where
  indent : Blanks
  comment : Option String
  oneLine : ∀ c ∈ comment, '\n' ∉ c.toList

/-- The content of a line with what stands around it. -/
def Margin.around (m : Margin) (content : String) : String :=
  m.indent.text ++ content ++ match m.comment with
    | none => ""
    | some c => " ;" ++ c

/-- A line of events: one of them, or a label in front of an instruction. -/
inductive Row where
  | alone (e : Event)
  | shared (l : Label) (gap : Blanks) (gap_ne : gap.text ≠ "") (e : Event)
      (instruction : e.opcode? ≠ none)

namespace Row

/-- The events of a row. -/
def events : Row → List Event
  | alone e => [e]
  | shared l _ _ e _ => [.label l, e]

/-- The row as it is written. -/
def content : Row → String
  | alone e => e.line
  | shared l gap _ e _ => l ++ ":" ++ gap.text ++ e.line

end Row

/-- The directive that declares a variable. -/
def Binding.line (b : Binding) : String := ".var " ++ b.name ++ " " ++ toString b.slot

/-- How a listing is laid out.  Its last line may end in a line feed or not. -/
structure Page where
  vars : List Binding
  rows : List Row
  margin : Nat → Margin
  closed : Bool

namespace Page

variable (p : Page) (head : Head)

/-- The lines of a page without what stands around their contents. -/
def contents : List String :=
  [".source " ++ head.source, ".class " ++ head.className,
    ".limit stack " ++ toString head.stackSize, ".limit locals " ++ toString head.locals]
    ++ p.vars.map Binding.line ++ p.rows.map Row.content

/-- The page as it is written. -/
def text : String :=
  "\n".intercalate ((p.contents head).mapIdx fun i content => (p.margin i).around content)
    ++ if p.closed then "\n" else ""

/-- The page has the bindings of the table in some order, and the events in theirs. -/
structure Shows (t : SymbolTable) (events : List Event) : Prop where
  vars : p.vars.Perm t.bindings
  rows : p.rows.flatMap Row.events = events

end Page

/-- The mnemonics that are read as loads, stores and jumps. -/
def reservedMnemonics : List String :=
  ["iload", "istore", "iload_0", "iload_1", "iload_2", "iload_3", "istore_0", "istore_1",
    "istore_2", "istore_3"] ++ Condition.all.map Condition.mnemonic

/-- The parts of the event are tokens, and its label or mnemonic is taken for nothing else. -/
def Event.Printable : Event → Prop
  | .label l => IsToken l.toList ∧ ':' ∉ l.toList ∧ l.toList.head? ≠ some '.'
  | .jump _ l => IsToken l.toList
  | .emit (.load _) => True
  | .emit (.store _) => True
  | .emit (.jump _ l) => IsToken l.toList
  | .emit (.other m operands) => IsToken m.toList ∧ ':' ∉ m.toList ∧ m.toList.head? ≠ some '.'
      ∧ m ∉ reservedMnemonics ∧ ∀ x ∈ operands, IsToken x.toList

instance : DecidablePred IsToken := fun _ => decidable_of_iff _ isToken_iff.symm

instance : DecidablePred Event.Printable
  | .label l => inferInstanceAs (Decidable (IsToken l.toList ∧ ':' ∉ l.toList ∧ _))
  | .jump _ l => inferInstanceAs (Decidable (IsToken l.toList))
  | .emit (.load _) => inferInstanceAs (Decidable True)
  | .emit (.store _) => inferInstanceAs (Decidable True)
  | .emit (.jump _ l) => inferInstanceAs (Decidable (IsToken l.toList))
  | .emit (.other m operands) => inferInstanceAs (Decidable (IsToken m.toList ∧ _ ∧ _
      ∧ m ∉ reservedMnemonics ∧ ∀ x ∈ operands, IsToken x.toList))

/-- The names of the frame are tokens, and its sizes are 64-bit numbers. -/
structure Head.Printable (head : Head) : Prop where
  source : IsToken head.source.toList
  className : IsToken head.className.toList
  stackSize : head.stackSize < 18446744073709551616
  locals : head.locals < 18446744073709551616

end Pages

section Words

/-- A line of a text, with the words that are read from it. -/
structure IsLine (line : List Char) (ws : List (List Char)) : Prop where
  words_eq : words (stripComment true line) = ws
  oneLine : '\n' ∉ line
  nonempty : line ≠ []

theorem isLine_around (m : Margin) {content : String} {ws : List (List Char)}
    (h : Spells content.toList ws) : IsLine (m.around content).toList ws := by
  have hindent := m.indent.oneLine
  have htext : (m.around content).toList = m.indent.text.toList ++ (content.toList
      ++ (match m.comment with | none => "" | some c => " ;" ++ c).toList) := by
    simp [Margin.around]
  refine ⟨?_, ?_, by simp [htext, h.nonempty]⟩
  · rw [htext, stripComment_append_blanks m.indent.blank, words_blanks_append m.indent.blank,
      h.strip]
    rcases m.comment with _ | c
    · rw [show stripComment false "".toList = [] from rfl, List.append_nil, h.words_eq]
    · have hcut : stripComment false (" ;" ++ c).toList = [' '] := by
        simp [stripComment, isBlank_space]
      rw [hcut, words_append_blanks (by simp [isBlank_space]), h.words_eq]
  · rw [htext]
    rcases hm : m.comment with _ | c
    · simp [hindent, h.oneLine]
    · simp [hindent, h.oneLine, m.oneLine c hm]

theorem isLine_mapIdx {contents : List String} {wss : List (List (List Char))}
    (margin : Nat → Margin)
    (h : List.Forall₂ (fun content ws => Spells content.toList ws) contents wss) :
    List.Forall₂ IsLine
      ((contents.mapIdx fun i content => (margin i).around content).map String.toList) wss := by
  induction h generalizing margin with
  | nil => exact .nil
  | cons hcontent _ ih =>
    rw [List.mapIdx_cons, List.map_cons]
    exact .cons (isLine_around (margin 0) hcontent) (ih fun i => margin (i + 1))

/-- Lines that are joined by line feeds are read one by one. -/
theorem words_lines_join (closed : Bool) {ls : List (List Char)} {wss : List (List (List Char))}
    (hne : ls ≠ []) (h : List.Forall₂ IsLine ls wss) :
    (lines (['\n'].intercalate ls ++ if closed then ['\n'] else [])).map
      (fun line => words (stripComment true line)) = wss := by
  induction h with
  | nil => exact absurd rfl hne
  | @cons w ws ls wss hw hrest ih =>
    rcases ls with _ | ⟨v, ls⟩
    · obtain rfl := List.forall₂_nil_left_iff.mp hrest
      rw [List.intercalate_singleton]
      cases closed with
      | true => simp [lines_append hw.oneLine, lines, words_stripComment_lineFeed, hw.words_eq]
      | false => simp [lines_of_oneLine hw.nonempty hw.oneLine, hw.words_eq]
    · rw [List.intercalate_cons_cons, List.append_assoc, List.append_assoc, List.singleton_append,
        lines_append hw.oneLine, List.map_cons, words_stripComment_lineFeed, hw.words_eq,
        ih (List.cons_ne_nil v ls)]

/-- The words of the directive that declares a variable. -/
def Binding.words (b : Binding) : List String := [".var", b.name, toString b.slot]

/-- The words of a row. -/
def Row.words : Row → List String
  | alone e => e.tokens
  | shared l _ _ e _ => (l ++ ":") :: e.tokens

/-- The words of each line of a page. -/
def Page.words (p : Page) (head : Head) : List (List String) :=
  [[".source", head.source], [".class", head.className],
    [".limit", "stack", toString head.stackSize], [".limit", "locals", toString head.locals]]
    ++ p.vars.map Binding.words ++ p.rows.map Row.words

theorem isPlain_of_not_mem_reserved {m : String} (h : m ∉ reservedMnemonics) : IsPlain m := by
  simp only [reservedMnemonics, List.mem_append, not_or] at h
  obtain ⟨hslots, hjumps⟩ := h
  refine ⟨?_, ?_, ?_, ?_⟩
  · unfold shortForm?
    split <;> simp at hslots ⊢
  · refine List.find?_eq_none.mpr fun c hc hm => hjumps ?_
    rw [← eq_of_beq hm]
    exact List.mem_map_of_mem hc
  · rintro rfl
    simp at hslots
  · rintro rfl
    simp at hslots

theorem Event.Printable.legible {e : Event} (h : e.Printable) :
    e.Legible ∧ e.isDotted = false := by
  match e, h with
  | .label l, h => exact ⟨h, rfl⟩
  | .jump c l, h => exact ⟨h, rfl⟩
  | .emit (.load s), _ => exact ⟨trivial, rfl⟩
  | .emit (.store s), _ => exact ⟨trivial, rfl⟩
  | .emit (.jump c l), h => exact ⟨h, rfl⟩
  | .emit (.other m operands), ⟨hm, hcolon, hdot, hreserved, hoperands⟩ =>
    exact ⟨⟨⟨hm, hcolon, isPlain_of_not_mem_reserved hreserved⟩, hoperands⟩,
      by simpa [isDotted] using hdot⟩

theorem spells_of_tokens {content : String} {ws : List String}
    (htext : content.toList = spaced (ws.map String.toList)) (hne : ws ≠ [])
    (h : ∀ w ∈ ws, IsToken w.toList) : Spells content.toList (ws.map String.toList) := by
  rw [htext]
  exact .spaced (by simpa using hne) (by simpa using h)

theorem Binding.spells_line {b : Binding} (h : IsToken b.name.toList) :
    Spells b.line.toList (b.words.map String.toList) := by
  refine spells_of_tokens (by simp [line, words, spaced]) (by simp [words]) fun w hw => ?_
  simp only [words, List.mem_cons, List.not_mem_nil, or_false] at hw
  rcases hw with rfl | rfl | rfl
  · exact isToken_iff.mpr (by decide)
  · exact h
  · exact isToken_toString b.slot

theorem Row.spells_content {r : Row} (h : ∀ e ∈ r.events, e.Legible) :
    Spells r.content.toList (r.words.map String.toList) := by
  cases r with
  | alone e => exact Event.spells_line (h e (by simp [events]))
  | shared l gap gap_ne e instruction =>
    have hlabel := Event.isToken_of_mem_tokens (h (.label l) (by simp [events])) (l ++ ":")
      (by simp [Event.tokens])
    have hevent := Event.spells_line (h e (by simp [events]))
    have hcons := hevent.cons hlabel gap.blank (by simpa using gap_ne) gap.oneLine
    simpa [content, words] using hcons

theorem Page.spells_contents {p : Page} {head : Head} (hhead : head.Printable)
    (hvars : ∀ b ∈ p.vars, IsToken b.name.toList)
    (hrows : ∀ r ∈ p.rows, ∀ e ∈ r.events, e.Legible) :
    List.Forall₂ (fun content ws => Spells content.toList ws) (p.contents head)
      ((p.words head).map fun ws => ws.map String.toList) := by
  rw [contents, words, List.map_append, List.map_append]
  refine List.rel_append (List.rel_append ?_ ?_) ?_
  · refine .cons ?_ (.cons ?_ (.cons ?_ (.cons ?_ .nil)))
    · refine spells_of_tokens (by simp [spaced]) (by simp) ?_
      simpa using ⟨isToken_iff.mpr (by decide), hhead.source⟩
    · refine spells_of_tokens (by simp [spaced]) (by simp) ?_
      simpa using ⟨isToken_iff.mpr (by decide), hhead.className⟩
    · refine spells_of_tokens (by simp [spaced]) (by simp) ?_
      simpa using ⟨isToken_iff.mpr (by decide), isToken_iff.mpr (by decide), isToken_toDigits _⟩
    · refine spells_of_tokens (by simp [spaced]) (by simp) ?_
      simpa using ⟨isToken_iff.mpr (by decide), isToken_iff.mpr (by decide), isToken_toDigits _⟩
  · rw [List.map_map, List.forall₂_map_left_iff, List.forall₂_map_right_iff, List.forall₂_same]
    exact fun b hb => Binding.spells_line (hvars b hb)
  · rw [List.map_map, List.forall₂_map_left_iff, List.forall₂_map_right_iff, List.forall₂_same]
    exact fun r hr => Row.spells_content (hrows r hr)

theorem Page.wordLines_text {p : Page} {head : Head} (hhead : head.Printable)
    (hvars : ∀ b ∈ p.vars, IsToken b.name.toList)
    (hrows : ∀ r ∈ p.rows, ∀ e ∈ r.events, e.Legible) :
    wordLines (p.text head) = (p.words head).map fun ws => ws.map String.toList := by
  have hlines := isLine_mapIdx p.margin (spells_contents hhead hvars hrows)
  have htext : (p.text head).toList = ['\n'].intercalate (((p.contents head).mapIdx fun i content =>
      (p.margin i).around content).map String.toList) ++ if p.closed then ['\n'] else [] := by
    rw [text, String.toList_append, String.toList_intercalate]
    cases p.closed <;> rfl
  rw [wordLines, htext]
  exact words_lines_join p.closed (by simp [contents]) hlines

end Words

theorem Listing.readNumber_toString {n : Nat} (h : n < 18446744073709551616) :
    readNumber (toString n) = .ok n := by
  have hdigits : (toString n).toList = Nat.toDigits 10 n := by simp
  simp only [readNumber, hdigits, numeral?_toDigits, if_pos h]

section Tables

namespace SymbolTable

theorem perm_place (b : Binding) : ∀ l : List Binding, (place b l).Perm (b :: l)
  | [] => .refl _
  | c :: l => by
    unfold place
    split_ifs
    · exact .refl _
    · exact ((perm_place b l).cons c).trans (.swap b c l)

theorem eq_of_perm {t t' : SymbolTable} (h : t.bindings.Perm t'.bindings) : t = t' := by
  have hbindings := h.eq_of_pairwise
    (fun a b _ _ hab hba => absurd (StrictTotal.trans hab hba) (StrictTotal.irrefl _))
    t.ascending t'.ascending
  cases t
  cases t'
  cases hbindings
  rfl

theorem pairwise_ne (t : SymbolTable) :
    t.bindings.Pairwise fun a b => a.slot ≠ b.slot ∧ a.name ≠ b.name := by
  refine (t.ascending.imp fun hab heq => ?_).and t.distinct
  rw [heq] at hab
  exact StrictTotal.irrefl _ hab

end SymbolTable

end Tables

namespace Listing

namespace Draft

variable {d d' : Draft}

theorem tellAll_append {wss wss' : List (List (List Char))} (h : d.tellAll wss = .ok d') :
    d.tellAll (wss ++ wss') = d'.tellAll wss' := by
  induction wss generalizing d with
  | nil =>
    rw [← Except.ok.inj h]
    rfl
  | cons ws wss ih =>
    rw [tellAll] at h
    rw [List.cons_append, tellAll]
    rcases hd₁ : d.tell ws with fault | d₁
    · simp [hd₁] at h
    · rw [hd₁] at h
      exact ih h

theorem tellAll_directive {name : String} {operands : List String} {wss : List (List String)}
    {directive : Directive} (hdot : name.toList.head? = some '.')
    (hread : readDirective name operands = .ok directive) (happly : d.apply directive = .ok d') :
    d.tellAll (((name :: operands) :: wss).map fun ws => ws.map String.toList)
      = d'.tellAll (wss.map fun ws => ws.map String.toList) := by
  have htell : d.tell ((name :: operands).map String.toList) = .ok d' := by
    simp [tell, hdot, hread, happly, Function.comp_def]
  rw [List.map_cons, tellAll, htell]

theorem apply_bind {x : String} {s : Slot}
    (h : ∀ b ∈ d.symbols.bindings, b.slot ≠ s ∧ b.name ≠ x) :
    ∃ t, t.bindings = SymbolTable.place ⟨x, s⟩ d.symbols.bindings
      ∧ d.apply (.bind x s) = .ok { d with symbols := t } := by
  simp only [apply, SymbolTable.declareAt, dif_pos h]
  exact ⟨_, rfl, rfl⟩

/-- The variables are bound one after the other, in whatever order they come. -/
theorem tellAll_vars {t : SymbolTable} : ∀ (vars : List Binding) (d : Draft),
    (d.symbols.bindings ++ vars).Perm t.bindings →
    d.tellAll ((vars.map Binding.words).map fun ws => ws.map String.toList)
      = .ok { d with symbols := t }
  | [], d, h => by
    rw [List.append_nil] at h
    rw [← SymbolTable.eq_of_perm h]
    rfl
  | b :: vars, d, h => by
    have hdistinct := (h.pairwise_iff fun hab => ⟨hab.1.symm, hab.2.symm⟩).mpr t.pairwise_ne
    have hfree : ∀ c ∈ d.symbols.bindings, c.slot ≠ b.slot ∧ c.name ≠ b.name := fun c hc =>
      (List.pairwise_append.mp hdistinct).2.2 c hc b List.mem_cons_self
    obtain ⟨t', hplace, happly⟩ := apply_bind hfree
    have hread : readDirective ".var" [b.name, toString b.slot] = .ok (.bind b.name b.slot) := by
      simp [readDirective, readVariable, readSlot_toString]
    have hrest : (t'.bindings ++ vars).Perm t.bindings := by
      rw [hplace]
      exact (((SymbolTable.perm_place b _).append_right vars).trans List.perm_middle.symm).trans h
    rw [List.map_cons, Binding.words, tellAll_directive rfl hread happly]
    exact tellAll_vars vars { d with symbols := t' } hrest

/-- Adds events as they are read, without places. -/
def addEvents (d : Draft) (es : List Event) : Draft :=
  { d with events := d.events ++ es.map fun e => ⟨e.asRead, .nowhere⟩ }

theorem tell_row {r : Row} (h : ∀ e ∈ r.events, e.Legible ∧ e.isDotted = false) :
    d.tell (r.words.map String.toList) = .ok (d.addEvents r.events) := by
  cases r with
  | alone e =>
    obtain ⟨hlegible, hdot⟩ := h e (by simp [Row.events])
    exact tell_tokens hlegible hdot
  | shared l gap gap_ne e instruction =>
    obtain ⟨⟨⟨⟨hne, -⟩, -⟩, hcolon, hdot⟩, -⟩ := h (.label l) (by simp [Row.events])
    obtain ⟨hlegible, -⟩ := h e (by simp [Row.events])
    have htell : d.tell ((Row.shared l gap gap_ne e instruction).words.map String.toList)
        = (d.addEvent (.label l) .nowhere).tellInstruction e.tokens := by
      simp [Row.words, tell, head?_append_colon hne, hdot, labelOf?_append_colon hne hcolon,
        Function.comp_def]
    rw [htell, tellInstruction_tokens hlegible instruction]
    simp [addEvent, addEvents, Row.events, show (Event.label l).asRead = .label l from rfl]

theorem tellAll_rows : ∀ (rows : List Row) (d : Draft),
    (∀ r ∈ rows, ∀ e ∈ r.events, e.Legible ∧ e.isDotted = false) →
    d.tellAll ((rows.map Row.words).map fun ws => ws.map String.toList)
      = .ok (d.addEvents (rows.flatMap Row.events))
  | [], d, _ => by simp [tellAll, addEvents]
  | r :: rows, d, h => by
    rw [List.map_cons, List.map_cons, tellAll, tell_row (h r (by simp))]
    simp only
    rw [tellAll_rows rows _ fun r' hr' => h r' (List.mem_cons_of_mem r hr')]
    simp [addEvents]

/-- The directives of the frame and the variables, and then the events. -/
theorem tellAll_page {p : Page} {head : Head} {t : SymbolTable} {events : List Event}
    (hhead : head.Printable) (hpage : p.Shows t events)
    (hevents : ∀ e ∈ events, e.Legible ∧ e.isDotted = false) :
    blank.tellAll ((p.words head).map fun ws => ws.map String.toList)
      = .ok (addEvents ⟨head.source, head.className, head.stackSize, some head.locals, t, []⟩
          events) := by
  have hstack : readDirective ".limit" ["stack", toString head.stackSize]
      = .ok (.stackLimit head.stackSize) := by
    show readLimit "stack" (toString head.stackSize) = _
    rw [readLimit, readNumber_toString hhead.stackSize]
    rfl
  have hlocals : readDirective ".limit" ["locals", toString head.locals]
      = .ok (.localsLimit head.locals) := by
    show readLimit "locals" (toString head.locals) = _
    rw [readLimit, readNumber_toString hhead.locals]
    rfl
  have hvars := tellAll_vars p.vars
    ⟨head.source, head.className, head.stackSize, some head.locals, ∅, []⟩ hpage.vars
  rw [← hpage.rows] at hevents ⊢
  have hrows := fun r hr e he => hevents e (List.mem_flatMap.mpr ⟨r, hr, he⟩)
  calc blank.tellAll ((p.words head).map fun ws => ws.map String.toList)
      = tellAll ⟨head.source, head.className, head.stackSize, some head.locals, ∅, []⟩
          ((p.vars.map Binding.words ++ p.rows.map Row.words).map fun ws =>
            ws.map String.toList) := by
        rw [Page.words, List.append_assoc, List.cons_append, tellAll_directive rfl rfl rfl,
          List.cons_append, tellAll_directive rfl rfl rfl, List.cons_append,
          tellAll_directive rfl hstack rfl, List.cons_append, tellAll_directive rfl hlocals rfl]
        rfl
    _ = tellAll ⟨head.source, head.className, head.stackSize, some head.locals, t, []⟩
          ((p.rows.map Row.words).map fun ws => ws.map String.toList) := by
        rw [List.map_append, tellAll_append hvars]
    _ = _ := tellAll_rows p.rows _ hrows

/-- The names of the variables are tokens. -/
def Named (d : Draft) : Prop := ∀ b ∈ d.symbols.bindings, IsToken b.name.toList

theorem symbols_tellInstruction {ws : List String} (h : d.tellInstruction ws = .ok d') :
    d'.symbols = d.symbols := by
  unfold tellInstruction at h
  split at h
  · rw [← Except.ok.inj h]
  · split at h
    · simp at h
    · rw [← Except.ok.inj h]
      rfl

theorem Named.apply (h : d.Named) {directive : Directive}
    (hbind : ∀ x s, directive = .bind x s → IsToken x.toList)
    (hd' : d.apply directive = .ok d') : d'.Named := by
  cases directive with
  | bind x s =>
    simp only [Draft.apply, SymbolTable.declareAt] at hd'
    split at hd'
    · rename_i t hdeclare
      split_ifs at hdeclare with hfree
      · obtain rfl := Except.ok.inj hd'
        obtain rfl := (Prod.mk.inj hdeclare).1
        intro b hb
        rcases SymbolTable.mem_place.mp hb with rfl | hb
        · exact hbind x s rfl
        · exact h b hb
      · simp at hdeclare
    · simp at hd'
  | source x =>
    rw [← Except.ok.inj hd']
    exact h
  | className x =>
    rw [← Except.ok.inj hd']
    exact h
  | stackLimit n =>
    rw [← Except.ok.inj hd']
    exact h
  | localsLimit n =>
    rw [← Except.ok.inj hd']
    exact h

theorem mem_operands_of_bind {name x : String} {operands : List String} {s : Slot}
    (h : readDirective name operands = .ok (.bind x s)) : x ∈ operands := by
  have hlimit : ∀ what number, readLimit what number ≠ .ok (.bind x s) := by
    intro what number
    unfold readLimit
    split
    · simp
    · split <;> simp
  unfold readDirective at h
  split at h
  · split at h <;> simp at h
  · split at h <;> simp at h
  · split at h
    · exact absurd h (hlimit _ _)
    · simp at h
  · split at h
    · unfold readVariable at h
      split at h
      · simp at h
      · obtain ⟨rfl, -⟩ := Directive.bind.inj (Except.ok.inj h)
        simp
    · simp at h
  · simp at h

theorem Named.tell (h : d.Named) {ws : List (List Char)} (hws : ∀ w ∈ ws, IsToken w)
    (hd' : d.tell ws = .ok d') : d'.Named := by
  rcases ws with _ | ⟨first, rest⟩
  · rw [← Except.ok.inj hd']
    exact h
  · simp only [Draft.tell] at hd'
    split_ifs at hd' with hdot
    · split at hd'
      · simp at hd'
      · rename_i directive hread
        refine h.apply (fun x s hbind => ?_) hd'
        subst hbind
        obtain ⟨w, hw, rfl⟩ := List.mem_map.mp (mem_operands_of_bind hread)
        rw [String.toList_ofList]
        exact hws w (List.mem_cons_of_mem _ hw)
    · split at hd' <;> rw [Named, symbols_tellInstruction hd'] <;> exact h

end Draft

/-- Whatever is read, its names are tokens. -/
theorem named_of_parse {src : String} {l : Listing} (h : parse src = .ok l) :
    ∀ b ∈ l.symbols.bindings, IsToken b.name.toList := by
  obtain ⟨d, hd, hsymbols⟩ := (exists_parse_iff_tellAll
    (P := fun _ symbols _ => symbols = l.symbols)).mp ⟨l, h, rfl⟩
  rw [← hsymbols]
  have hblank : Draft.blank.Named := fun b hb => absurd hb List.not_mem_nil
  exact Draft.tellAll_keeps (fun h hws => h.tell hws) hblank isToken_of_mem_wordLines hd

end Listing

/-- A listing that is printed on a page in any layout is read as what the page shows, exactly if the
names of its variables are tokens. -/
theorem parse_page_iff {p : Page} {head : Head} {t : SymbolTable} {events : List Event}
    (hhead : head.Printable) (hevents : ∀ e ∈ events, e.Printable) (hpage : p.Shows t events) :
    (∃ l, parse (p.text head) = .ok l ∧ l.head = head ∧ l.symbols = t
      ∧ l.told = events.map Event.asRead) ↔ ∀ b ∈ t.bindings, IsToken b.name.toList := by
  constructor
  · rintro ⟨l, hl, -, rfl, -⟩
    exact named_of_parse hl
  · intro hnames
    have hlegible := fun e he => (hevents e he).legible
    have hlines := Page.wordLines_text hhead (fun b hb => hnames b (hpage.vars.mem_iff.mp hb))
      fun r hr e he => (hlegible e (hpage.rows ▸ List.mem_flatMap.mpr ⟨r, hr, he⟩)).1
    have htell := Draft.tellAll_page hhead hpage hlegible
    rw [← hlines] at htell
    refine (exists_parse_iff_tellAll (P := fun head' symbols told => head' = head ∧ symbols = t
      ∧ told = events.map Event.asRead)).mpr ⟨_, htell, rfl, rfl, ?_⟩
    simp [Draft.addEvents, Function.comp_def]

section Samples

/-- Nothing stands around the content. -/
def Margin.bare : Margin where
  indent := ⟨"", fun _ h => absurd h List.not_mem_nil, List.not_mem_nil⟩
  comment := none
  oneLine := fun _ h => nomatch h

theorem isBlank_of_mem_tab : ∀ c ∈ "\t".toList, isBlank c = true := by
  simp [show isBlank '\t' = true by decide]

theorem lineFeed_not_mem_tab : '\n' ∉ "\t".toList := by decide

theorem tab_ne_empty : "\t" ≠ "" := by decide

theorem lineFeed_not_mem_remark : ∀ c ∈ some "a; b", '\n' ∉ c.toList := by decide

/-- A tab in front and a comment behind. -/
def Margin.remark : Margin where
  indent := ⟨"\t", isBlank_of_mem_tab, lineFeed_not_mem_tab⟩
  comment := some "a; b"
  oneLine := lineFeed_not_mem_remark

/-- The variables `x` and `n`, in slots 1 and 2. -/
def loopSymbols : SymbolTable := SymbolTable.declareAll ∅ ["x", "n"]

/-- A loop without a way out, which pushes `x` and the stream. -/
def loopEvents : List Event :=
  [.label "Top", .emit (.load ⟨1, Slot.one_lt_total⟩), .label "In",
    .emit (.other "getstatic" ["java/lang/System/out", "Ljava/io/PrintStream;"]),
    .emit (.jump .always "Top")]

theorem opcode?_load_ne_none (s : Slot) : (Event.emit (.load s)).opcode? ≠ none := by
  simp [Event.opcode?]

/-- A page of which every line but the first is indented and has a comment. -/
def loopPage : Page where
  vars := [⟨"n", ⟨2, Slot.two_lt_total⟩⟩, ⟨"x", ⟨1, Slot.one_lt_total⟩⟩]
  rows := [.shared "Top" Margin.remark.indent tab_ne_empty (.emit (.load ⟨1, Slot.one_lt_total⟩))
      (opcode?_load_ne_none _), .alone (.label "In"),
    .alone (.emit (.other "getstatic" ["java/lang/System/out", "Ljava/io/PrintStream;"])),
    .alone (.emit (.jump .always "Top"))]
  margin
    | 0 => .bare
    | _ => .remark
  closed := false

theorem parse_page_iff_loop : loopPage.text ⟨"loop.j", "Loop", 2, 3⟩
    = ".source loop.j\n\t.class Loop ;a; b\n\t.limit stack 2 ;a; b\n\t.limit locals 3 ;a; b\n"
      ++ "\t.var n 2 ;a; b\n\t.var x 1 ;a; b\n\tTop:\tiload 1 ;a; b\n\tIn: ;a; b\n"
      ++ "\tgetstatic java/lang/System/out Ljava/io/PrintStream; ;a; b\n\tgoto Top ;a; b"
    ∧ ∃ l, parse (loopPage.text ⟨"loop.j", "Loop", 2, 3⟩) = .ok l
      ∧ l.head = ⟨"loop.j", "Loop", 2, 3⟩ ∧ l.symbols = loopSymbols
      ∧ l.told = loopEvents.map Event.asRead := by
  have hhead : Head.Printable ⟨"loop.j", "Loop", 2, 3⟩ :=
    ⟨by decide, by decide, by decide, by decide⟩
  have hpage : loopPage.Shows loopSymbols loopEvents := ⟨.swap _ _ _, rfl⟩
  exact ⟨by decide +kernel, (parse_page_iff hhead (by decide) hpage).mpr (by decide)⟩

/-- A variable whose name is two words. -/
def splitSymbols : SymbolTable := SymbolTable.declareAll ∅ ["a b"]

/-- The page of `splitSymbols`, without events. -/
def splitPage : Page where
  vars := splitSymbols.bindings
  rows := []
  margin := fun _ => .bare
  closed := true

/-- A name with a blank in it is read as two operands. -/
theorem parse_page_splits_name :
    splitPage.text ⟨"S", "C", 0, 2⟩
      = ".source S\n.class C\n.limit stack 0\n.limit locals 2\n.var a b 1\n"
    ∧ ¬ ∀ (p : Page) (head : Head) (t : SymbolTable) (events : List Event), head.Printable →
      (∀ e ∈ events, e.Printable) → p.Shows t events →
      ∃ l, parse (p.text head) = .ok l ∧ l.head = head ∧ l.symbols = t
        ∧ l.told = events.map Event.asRead := by
  refine ⟨by decide +kernel, fun h => ?_⟩
  have hhead : Head.Printable ⟨"S", "C", 0, 2⟩ := ⟨by decide, by decide, by decide, by decide⟩
  obtain ⟨l, hl, -⟩ := h splitPage _ splitSymbols [] hhead (by simp) ⟨.refl _, rfl⟩
  have hread : (parse (splitPage.text ⟨"S", "C", 0, 2⟩)).toOption = none := by decide +kernel
  rw [hl] at hread
  simp [Except.toOption] at hread

end Samples

end SlotColoring
