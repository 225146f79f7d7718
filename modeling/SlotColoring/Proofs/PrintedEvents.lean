import SlotColoring.Proofs.LineWords
import SlotColoring.Proofs.WrittenNumbers

/-!
# Printing the events of a listing and reading them again

What reading a line comes to depends on its words alone, but for the places of the events
(`Draft.outcome_readLine`), and so it is with a whole text (`result_parse`).  Every event that is
read is legible: printed on a line of its own it is cut into the tokens that it was made from
(`Event.spells_line`).  These are read as the same event, unless the first starts with a dot.  A
label may be followed on its line by such a token, which is taken for a mnemonic there, but at the
start of a line it is a directive.
-/

namespace SlotColoring

open Text

namespace Listing

/-- The events of a listing without their places. -/
def told (l : Listing) : List Event := l.events.map Located.event

namespace Draft

/-- The draft without the places of its events. -/
def unplaced (d : Draft) : Draft :=
  { d with events := d.events.map fun e => ⟨e.event, .nowhere⟩ }

/-- What reading comes to, without places. -/
def outcome : Except ListingError Draft → Except ListingFault Draft
  | .ok d => .ok d.unplaced
  | .error e => .error e.fault

/-- Reads the words of an instruction, if there is one, and notes no place. -/
def tellInstruction (d : Draft) : List String → Except ListingFault Draft
  | [] => .ok d
  | m :: operands => match readInstruction m operands with
    | .error fault => .error fault
    | .ok e => .ok (d.addEvent e .nowhere)

/-- Reads the words of a line and notes no places. -/
def tell (d : Draft) : List (List Char) → Except ListingFault Draft
  | [] => .ok d
  | first :: rest =>
    if first.head? = some '.' then
      match readDirective (String.ofList first) (rest.map String.ofList) with
      | .error fault => .error fault
      | .ok directive => d.apply directive
    else match labelOf? first with
      | some l => (d.addEvent (.label l) .nowhere).tellInstruction (rest.map String.ofList)
      | none => d.tellInstruction ((first :: rest).map String.ofList)

/-- Reads the words of lines up to the first error and notes no places. -/
def tellAll (d : Draft) : List (List (List Char)) → Except ListingFault Draft
  | [] => .ok d
  | ws :: rest => match d.tell ws with
    | .error fault => .error fault
    | .ok d' => d'.tellAll rest

section Places

variable (d : Draft)

theorem unplaced_addEvent (e : Event) (span : Span) :
    (d.addEvent e span).unplaced = d.unplaced.addEvent e .nowhere := by
  simp [unplaced, addEvent]

theorem outcome_readInstructionAt (ws : List (List Char)) (span : Span) :
    outcome (d.readInstructionAt ws span) = d.unplaced.tellInstruction (ws.map String.ofList) := by
  unfold readInstructionAt
  rcases ws.map String.ofList with _ | ⟨m, operands⟩
  · rfl
  · simp only [tellInstruction]
    rcases readInstruction m operands with fault | e
    · rfl
    · simp [outcome, unplaced_addEvent]

theorem outcome_readDirectiveAt (name : String) (operands : List String) (span : Span) :
    outcome (d.readDirectiveAt name operands span) =
      match readDirective name operands with
      | .error fault => .error fault
      | .ok directive => d.unplaced.apply directive := by
  unfold readDirectiveAt
  rcases readDirective name operands with fault | directive
  · rfl
  · cases directive with
    | bind x slot =>
      simp only [apply, unplaced]
      rcases d.symbols.declareAt x slot with ⟨t, _ | _⟩ <;> rfl
    | source x => rfl
    | className x => rfl
    | stackLimit n => rfl
    | localsLimit n => rfl

theorem outcome_readText (text : List Char) (lo : Nat) :
    outcome (d.readText text lo) = d.unplaced.tell (words text) := by
  unfold readText
  rcases words text with _ | ⟨first, rest⟩
  · rfl
  · simp only [tell]
    split_ifs with hdot
    · exact d.outcome_readDirectiveAt _ _ _
    · rcases labelOf? first with _ | l
      · exact d.outcome_readInstructionAt _ _
      · simp only [outcome_readInstructionAt, unplaced_addEvent]

theorem outcome_readLine (line : List Char) (start : Nat) :
    outcome (d.readLine line start) = d.unplaced.tell (words (stripComment true line)) := by
  unfold readLine
  rw [outcome_readText, words_trimEnd, words_trimStart]

theorem outcome_readLines : ∀ (ls : List (List Char)) (d : Draft) (start : Nat),
    outcome (d.readLines start ls)
      = d.unplaced.tellAll (ls.map fun line => words (stripComment true line))
  | [], _, _ => rfl
  | line :: ls, d, start => by
    have hline := d.outcome_readLine line start
    simp only [readLines, List.map_cons, tellAll, ← hline]
    rcases d.readLine line start with e | d'
    · rfl
    · exact outcome_readLines ls d' _

end Places

end Draft

/-- The words of the lines of a text, without the comments. -/
def wordLines (src : String) : List (List (List Char)) :=
  (lines src.toList).map fun line => words (stripComment true line)

/-- The events of a draft without their places. -/
def Draft.told (d : Draft) : List Event := d.events.map Located.event

/-- What reading a listing comes to, without places. -/
def result : Except ListingError Listing → Except ListingFault (Head × SymbolTable × List Event)
  | .ok l => .ok (l.head, l.symbols, l.told)
  | .error e => .error e.fault

/-- A listing is what its words tell. -/
theorem result_parse (src : String) : result (parse src)
    = (Draft.blank.tellAll (wordLines src)).map fun d => (d.finish.head, d.symbols, d.told) := by
  have hlines := Draft.outcome_readLines (lines src.toList) Draft.blank 0
  rw [wordLines, ← show Draft.blank.unplaced = Draft.blank from rfl, ← hlines]
  unfold parse
  rcases Draft.blank.readLines 0 (lines src.toList) with e | d
  · rfl
  · simp [result, Draft.outcome, Except.map, Draft.unplaced, Draft.finish, told, Draft.told]

theorem exists_parse_iff_tellAll {src : String} {P : Head → SymbolTable → List Event → Prop} :
    (∃ l, parse src = .ok l ∧ P l.head l.symbols l.told) ↔
      ∃ d, Draft.blank.tellAll (wordLines src) = .ok d
        ∧ P d.finish.head d.symbols (d.events.map Located.event) := by
  have hresult := result_parse src
  rcases hparse : parse src with e | l <;>
    rcases htell : Draft.blank.tellAll (wordLines src) with fault | d <;>
    rw [hparse, htell] at hresult
  · simp
  · simp [result, Except.map] at hresult
  · simp [result, Except.map] at hresult
  · simp only [result, Except.map, Except.ok.injEq, Prod.mk.injEq] at hresult
    obtain ⟨hhead, hsymbols, htold⟩ := hresult
    simp [hhead, hsymbols, htold, Draft.told]

theorem exists_parse_iff {src : String} {es : List Event} :
    (∃ l, parse src = .ok l ∧ l.told = es) ↔
      ∃ d, Draft.blank.tellAll (wordLines src) = .ok d ∧ d.events.map Located.event = es :=
  exists_parse_iff_tellAll (P := fun _ _ told => told = es)

theorem isToken_of_mem_wordLines {src : String} :
    ∀ ws ∈ wordLines src, ∀ w ∈ ws, IsToken w := by
  intro ws hws w hw
  obtain ⟨line, -, rfl⟩ := List.mem_map.mp hws
  exact isToken_of_mem_words hw

/-- What every line of tokens keeps is kept by all lines together. -/
theorem Draft.tellAll_keeps {P : Draft → Prop}
    (hstep : ∀ {d d' : Draft} {ws : List (List Char)}, P d → (∀ w ∈ ws, IsToken w) →
      d.tell ws = .ok d' → P d') {d' : Draft} :
    ∀ {lines : List (List (List Char))} {d : Draft}, P d →
      (∀ ws ∈ lines, ∀ w ∈ ws, IsToken w) → d.tellAll lines = .ok d' → P d'
  | [], d, h, _, hd' => by
    rw [← Except.ok.inj hd']
    exact h
  | ws :: lines, d, h, hlines, hd' => by
    simp only [tellAll] at hd'
    rcases hd₁ : d.tell ws with fault | d₁
    · simp [hd₁] at hd'
    · rw [hd₁] at hd'
      exact tellAll_keeps hstep (hstep h (hlines ws (by simp)) hd₁)
        (fun vs hvs => hlines vs (List.mem_cons_of_mem _ hvs)) hd'

end Listing

section Legible

open Listing

/-- The mnemonic is not that of a load, a store or a jump. -/
def IsPlain (m : String) : Prop :=
  shortForm? m = none ∧ Condition.ofMnemonic? m = none ∧ m ≠ "iload" ∧ m ≠ "istore"

/-- The parts of the event are tokens, and its label or mnemonic is not taken for anything else at
the start of a line, unless it is a mnemonic that starts with a dot. -/
def Event.Legible : Event → Prop
  | .label l => IsToken l.toList ∧ ':' ∉ l.toList ∧ l.toList.head? ≠ some '.'
  | .jump _ l => IsToken l.toList
  | .emit (.load _) => True
  | .emit (.store _) => True
  | .emit (.jump _ l) => IsToken l.toList
  | .emit (.other m operands) => (IsToken m.toList ∧ ':' ∉ m.toList ∧ IsPlain m)
      ∧ ∀ x ∈ operands, IsToken x.toList

/-- A jump is read as an event of its own kind. -/
def Event.asRead : Event → Event
  | .emit (.jump c l) => .jump c l
  | e => e

theorem shortForm?_cases {m : String} {op : Opcode} (h : shortForm? m = some op) :
    ∃ s, op = .load s ∨ op = .store s := by
  unfold shortForm? at h
  split at h <;> simp at h <;> subst h <;> simp

namespace Listing

/-- The operand is the number of the slot, or there is none because the mnemonic has it. -/
def NumbersSlot (operands : List String) (s : Slot) : Prop :=
  operands = [] ∨ ∃ word, operands = [word] ∧ readSlot word = .ok s

theorem readOnSlot_ok {op : Slot → Opcode} {m : String} {operands : List String} {e : Event}
    (h : readOnSlot op m operands = .ok e) : ∃ s, e = .emit (op s) ∧ NumbersSlot operands s := by
  unfold readOnSlot at h
  split at h
  · rename_i word
    rcases hs : readSlot word with fault | s
    · simp [hs] at h
    · rw [hs] at h
      exact ⟨s, (Except.ok.inj h).symm, Or.inr ⟨word, rfl, hs⟩⟩
  · simp at h

/-- What an instruction is read as. -/
theorem readInstruction_ok {m : String} {operands : List String} {e : Event}
    (h : readInstruction m operands = .ok e) : ':' ∉ m.toList
      ∧ ((∃ s, e = .emit (.load s) ∧ NumbersSlot operands s)
        ∨ (∃ s, e = .emit (.store s) ∧ NumbersSlot operands s)
        ∨ (∃ c l, Condition.ofMnemonic? m = some c ∧ operands = [l] ∧ e = .jump c l)
        ∨ (IsPlain m ∧ e = .emit (.other m operands))) := by
  unfold readInstruction at h
  by_cases hcolon : ':' ∈ m.toList
  · simp [hcolon] at h
  rw [if_neg hcolon] at h
  refine ⟨hcolon, ?_⟩
  rcases hshort : shortForm? m with _ | op
  · rcases hcond : Condition.ofMnemonic? m with _ | c
    · simp only [hshort, hcond] at h
      split at h
      · exact Or.inl (readOnSlot_ok h)
      · exact Or.inr (Or.inl (readOnSlot_ok h))
      · rename_i hload hstore
        exact Or.inr (Or.inr (Or.inr ⟨⟨hshort, hcond, hload, hstore⟩, (Except.ok.inj h).symm⟩))
    · simp only [hshort, hcond] at h
      split at h
      · exact Or.inr (Or.inr (Or.inl ⟨c, _, rfl, rfl, (Except.ok.inj h).symm⟩))
      · simp at h
  · simp only [hshort] at h
    split_ifs at h with hnone
    have hslot : ∀ s, NumbersSlot operands s := fun s => Or.inl (List.isEmpty_iff.mp hnone)
    rw [← Except.ok.inj h]
    obtain ⟨s, rfl | rfl⟩ := shortForm?_cases hshort
    · exact Or.inl ⟨s, rfl, hslot s⟩
    · exact Or.inr (Or.inl ⟨s, rfl, hslot s⟩)

theorem legible_of_readInstruction {m : String} {operands : List String} {e : Event}
    (hm : IsToken m.toList) (hoperands : ∀ x ∈ operands, IsToken x.toList)
    (h : readInstruction m operands = .ok e) : e.Legible ∧ e.asRead = e := by
  obtain ⟨hcolon, ⟨s, rfl, -⟩ | ⟨s, rfl, -⟩ | ⟨c, l, -, rfl, rfl⟩ | ⟨hplain, rfl⟩⟩ :=
    readInstruction_ok h
  · exact ⟨trivial, rfl⟩
  · exact ⟨trivial, rfl⟩
  · exact ⟨hoperands l (by simp), rfl⟩
  · exact ⟨⟨⟨hm, hcolon, hplain⟩, hoperands⟩, rfl⟩

theorem head?_append_colon {cs : List Char} (h : cs ≠ []) : (cs ++ [':']).head? = cs.head? := by
  rcases cs with _ | ⟨c, cs⟩
  · exact absurd rfl h
  · rfl

theorem labelOf?_eq_some {word : List Char} {l : Label} (h : labelOf? word = some l) :
    word = l.toList ++ [':'] ∧ l.toList ≠ [] ∧ ':' ∉ l.toList := by
  unfold labelOf? at h
  split_ifs at h with hword
  obtain ⟨hlast, hne, hcolon⟩ := hword
  obtain rfl := Option.some.inj h
  obtain ⟨front, rfl⟩ := List.getLast?_eq_some_iff.mp hlast
  simp only [List.dropLast_concat] at hne hcolon
  simp [hne, hcolon]

/-- All events of the draft are legible, and none is to be read as another. -/
def Draft.Legible (d : Draft) : Prop :=
  ∀ e ∈ d.events.map Located.event, e.Legible ∧ e.asRead = e

namespace Draft

variable {d d' : Draft} {e : Event} {span : Span}

theorem Legible.addEvent (h : d.Legible) (he : e.Legible ∧ e.asRead = e) :
    (d.addEvent e span).Legible := by
  intro e' he'
  simp only [Draft.addEvent, List.map_append, List.map_cons, List.map_nil, List.mem_append,
    List.mem_singleton] at he'
  rcases he' with he' | rfl
  · exact h e' he'
  · exact he

theorem events_apply {directive : Directive} (h : d.apply directive = .ok d') :
    d'.events = d.events := by
  cases directive with
  | bind x slot =>
    simp only [apply] at h
    split at h
    · rw [← Except.ok.inj h]
    · simp at h
  | source x => rw [← Except.ok.inj h]
  | className x => rw [← Except.ok.inj h]
  | stackLimit n => rw [← Except.ok.inj h]
  | localsLimit n => rw [← Except.ok.inj h]

theorem Legible.tellInstruction (h : d.Legible) {ws : List (List Char)} (hws : ∀ w ∈ ws, IsToken w)
    (hd' : d.tellInstruction (ws.map String.ofList) = .ok d') : d'.Legible := by
  rcases ws with _ | ⟨m, operands⟩
  · rw [← Except.ok.inj hd']
    exact h
  · simp only [List.map_cons, Draft.tellInstruction] at hd'
    rcases he : readInstruction (String.ofList m) (operands.map String.ofList) with fault | e
    · simp [he] at hd'
    · simp only [he, Except.ok.injEq] at hd'
      rw [← hd']
      refine h.addEvent (legible_of_readInstruction (by simpa using hws m (by simp)) ?_ he)
      intro x hx
      obtain ⟨w, hw, rfl⟩ := List.mem_map.mp hx
      simpa using hws w (List.mem_cons_of_mem _ hw)

theorem Legible.tell (h : d.Legible) {ws : List (List Char)} (hws : ∀ w ∈ ws, IsToken w)
    (hd' : d.tell ws = .ok d') : d'.Legible := by
  rcases ws with _ | ⟨first, rest⟩
  · rw [← Except.ok.inj hd']
    exact h
  · simp only [Draft.tell] at hd'
    have hrest : ∀ w ∈ rest, IsToken w := fun w hw => hws w (List.mem_cons_of_mem _ hw)
    split_ifs at hd' with hdot
    · split at hd'
      · simp at hd'
      · rw [Draft.Legible, events_apply hd']
        exact h
    · rcases hl : labelOf? first with _ | l
      · rw [hl] at hd'
        exact h.tellInstruction hws hd'
      · rw [hl] at hd'
        obtain ⟨rfl, hne, hcolon⟩ := labelOf?_eq_some hl
        obtain ⟨⟨-, hblank⟩, hsemi⟩ := hws _ List.mem_cons_self
        rw [head?_append_colon hne] at hsemi hdot
        have hlabel : (Event.label l).Legible :=
          ⟨⟨⟨hne, fun c hc => hblank c (List.mem_append_left _ hc)⟩, hsemi⟩, hcolon, hdot⟩
        exact (h.addEvent ⟨hlabel, rfl⟩).tellInstruction hrest hd'

end Draft

/-- Whatever is read is legible. -/
theorem legible_of_parse {src : String} {l : Listing} (h : parse src = .ok l) :
    ∀ e ∈ l.told, e.Legible ∧ e.asRead = e := by
  obtain ⟨d, hd, htold⟩ := exists_parse_iff.mp ⟨l, h, rfl⟩
  rw [← htold]
  have hblank : Draft.blank.Legible := by simp [Draft.Legible, Draft.blank]
  exact Draft.tellAll_keeps (fun h hws => h.tell hws) hblank isToken_of_mem_wordLines hd

end Listing

end Legible

section Numerals

theorem Slot.toList_toString (s : Slot) : (toString s).toList = Nat.toDigits 10 s.index := by
  simp [toString, Nat.repr_eq_ofList_toDigits]

theorem Listing.readSlot_toString (s : Slot) : readSlot (toString s) = .ok s := by
  simp [readSlot, s.toList_toString, numeral?_toDigits, Slot.ofIndex?, s.index_lt]

theorem Text.isBlank_of_isDigit {c : Char} (h : c.isDigit = true) : isBlank c = false := by
  simp only [Char.isDigit, Bool.and_eq_true, decide_eq_true_eq, UInt32.le_iff_toNat_le] at h
  have hlo : 48 ≤ c.toNat := h.1
  have hhi : c.toNat ≤ 57 := h.2
  simp [isBlank, blankRanges]
  omega

theorem Listing.isToken_toDigits (n : Nat) : IsToken (Nat.toDigits 10 n) := by
  have hdigits : ∀ c ∈ Nat.toDigits 10 n, c.isDigit = true := fun c hc =>
    Nat.isDigit_of_mem_toDigits (by omega) (by omega) hc
  refine ⟨⟨Nat.toDigits_ne_nil, fun c hc => isBlank_of_isDigit (hdigits c hc)⟩, fun hsemi => ?_⟩
  have := hdigits _ (List.mem_of_mem_head? hsemi)
  simp [Char.isDigit] at this

theorem Listing.isToken_toString (s : Slot) : IsToken (toString s).toList := by
  rw [s.toList_toString]
  exact isToken_toDigits s.index

end Numerals

section Printed

open Listing

/-- The line that an event is printed on. -/
def Event.line : Event → String
  | .label l => l ++ ":"
  | .emit op => op.text
  | .jump c l => (Opcode.jump c l).text

/-- The events printed one to a line. -/
def printed (events : List Event) : String := String.join (events.map fun e => e.line ++ "\n")

/-- The words of an instruction. -/
def Opcode.tokens : Opcode → List String
  | .load s => ["iload", toString s]
  | .store s => ["istore", toString s]
  | .jump c l => [c.mnemonic, l]
  | .other m operands => m :: operands

/-- The words of an event. -/
def Event.tokens : Event → List String
  | .label l => [l ++ ":"]
  | .emit op => op.tokens
  | .jump c l => (Opcode.jump c l).tokens

theorem Opcode.toList_text (op : Opcode) :
    op.text.toList = spaced (op.tokens.map String.toList) := by
  cases op with
  | load s => simp [text, tokens, spaced]
  | store s => simp [text, tokens, spaced]
  | jump c l => simp [text, tokens, spaced]
  | other m operands => simp [text, tokens, spaced, String.toList_intercalate]

theorem Event.toList_line (e : Event) : e.line.toList = spaced (e.tokens.map String.toList) := by
  cases e with
  | label l => simp [line, tokens, spaced]
  | emit op => exact op.toList_text
  | jump c l => exact (Opcode.jump c l).toList_text

theorem Condition.isToken_mnemonic (c : Condition) :
    IsToken c.mnemonic.toList ∧ ':' ∉ c.mnemonic.toList
      ∧ c.mnemonic.toList.head? ≠ some '.' ∧ shortForm? c.mnemonic = none := by
  rw [isToken_iff]
  rcases c with _ | c | c
  · decide
  · cases c <;> decide
  · cases c <;> decide

theorem Event.isToken_of_mem_tokens {e : Event} (h : e.Legible) :
    ∀ w ∈ e.tokens, IsToken w.toList := by
  have hjump : ∀ (c : Condition) (l : Label), IsToken l.toList →
      ∀ w ∈ [c.mnemonic, l], IsToken w.toList := fun c l hl => by
    simpa using ⟨c.isToken_mnemonic.1, hl⟩
  have hslot : ∀ (m : String) (s : Slot), IsToken m.toList →
      ∀ w ∈ [m, toString s], IsToken w.toList := fun m s hm => by
    simpa using ⟨hm, isToken_toString s⟩
  match e, h with
  | .label l, ⟨⟨⟨hne, hblank⟩, hsemi⟩, _⟩ =>
    intro w hw
    obtain rfl := List.mem_singleton.mp hw
    rw [String.toList_append, show ":".toList = [':'] from rfl]
    refine ⟨⟨by simp, fun c hc => ?_⟩, by rwa [head?_append_colon hne]⟩
    rcases List.mem_append.mp hc with hc | hc
    · exact hblank c hc
    · obtain rfl := List.mem_singleton.mp hc
      decide
  | .jump c l, h => exact hjump c l h
  | .emit (.load s), _ => exact hslot "iload" s (isToken_iff.mpr (by decide))
  | .emit (.store s), _ => exact hslot "istore" s (isToken_iff.mpr (by decide))
  | .emit (.jump c l), h => exact hjump c l h
  | .emit (.other m operands), h => simpa [tokens, Opcode.tokens] using ⟨h.1.1, h.2⟩

theorem Event.spells_line {e : Event} (h : e.Legible) :
    Spells e.line.toList (e.tokens.map String.toList) := by
  have htokens : ∀ w ∈ e.tokens.map String.toList, IsToken w := by
    simpa using Event.isToken_of_mem_tokens h
  rw [e.toList_line]
  refine .spaced ?_ htokens
  rcases e with op | l | ⟨c, l⟩
  · cases op <;> simp [tokens, Opcode.tokens]
  · simp [tokens]
  · simp [tokens, Opcode.tokens]

theorem wordLines_printed {es : List Event} (h : ∀ e ∈ es, e.Legible) :
    wordLines (printed es) = es.map fun e => e.tokens.map String.toList := by
  have hchars : (printed es).toList
      = (es.map fun e => e.line.toList).flatMap fun w => w ++ ['\n'] := by
    simp [printed, String.toList_join, List.flatMap_map]
  have hfeed : ∀ w ∈ es.map (fun e => e.line.toList), '\n' ∉ w := by
    intro w hw
    obtain ⟨e, he, rfl⟩ := List.mem_map.mp hw
    exact (Event.spells_line (h e he)).oneLine
  rw [wordLines, hchars, lines_flatMap hfeed, List.map_map, List.map_map]
  refine List.map_congr_left fun e he => ?_
  rw [Function.comp_apply, Function.comp_apply, words_stripComment_lineFeed]
  exact (Event.spells_line (h e he)).words_strip

end Printed

section Reread

open Listing

/-- An instruction that is printed with a dot in front. -/
def Event.isDotted : Event → Bool
  | .emit (.other m _) => m.toList.head? == some '.'
  | _ => false

theorem Listing.labelOf?_eq_none {word : List Char} (h : ':' ∉ word) : labelOf? word = none := by
  unfold labelOf?
  exact if_neg fun hword => h (List.mem_of_getLast? hword.1)

theorem Listing.labelOf?_append_colon {l : Label} (hne : l.toList ≠ []) (hcolon : ':' ∉ l.toList) :
    labelOf? (l.toList ++ [':']) = some l := by
  simp [labelOf?, hne, hcolon]

theorem Opcode.readInstruction_tokens {op : Opcode} (h : (Event.emit op).Legible) :
    ∃ m operands, op.tokens = m :: operands ∧ ':' ∉ m.toList
      ∧ ((Event.emit op).isDotted = false → m.toList.head? ≠ some '.')
      ∧ readInstruction m operands = .ok (Event.emit op).asRead := by
  cases op with
  | load s =>
    refine ⟨"iload", [toString s], rfl, by decide, fun _ => by decide, ?_⟩
    have hcond : Condition.ofMnemonic? "iload" = none := by decide
    simp [readInstruction, shortForm?, hcond, readOnSlot, readSlot_toString, Event.asRead]
  | store s =>
    refine ⟨"istore", [toString s], rfl, by decide, fun _ => by decide, ?_⟩
    have hcond : Condition.ofMnemonic? "istore" = none := by decide
    simp [readInstruction, shortForm?, hcond, readOnSlot, readSlot_toString, Event.asRead]
  | jump c l =>
    obtain ⟨-, hcolon, hdot, hshort⟩ := c.isToken_mnemonic
    refine ⟨c.mnemonic, [l], rfl, hcolon, fun _ => hdot, ?_⟩
    simp [readInstruction, hcolon, hshort, Condition.ofMnemonic?_mnemonic, Event.asRead]
  | other m operands =>
    obtain ⟨⟨-, hcolon, hshort, hcond, hload, hstore⟩, -⟩ := h
    refine ⟨m, operands, rfl, hcolon, fun hdot => by simpa [Event.isDotted] using hdot, ?_⟩
    simp [readInstruction, hcolon, hshort, hcond, Event.asRead]

namespace Listing.Draft

variable {d d' : Draft} {e : Event} {es : List Event}

theorem tellInstruction_tokens (h : e.Legible) (hop : e.opcode? ≠ none) :
    d.tellInstruction e.tokens = .ok (d.addEvent e.asRead .nowhere) := by
  have hemit : ∀ op : Opcode, (Event.emit op).Legible →
      d.tellInstruction op.tokens = .ok (d.addEvent (Event.emit op).asRead .nowhere) := by
    intro op h
    obtain ⟨m, operands, htokens, -, -, hread⟩ := Opcode.readInstruction_tokens h
    rw [htokens, tellInstruction, hread]
  cases e with
  | emit op => exact hemit op h
  | jump c l => exact hemit (.jump c l) h
  | label l => exact absurd rfl hop

theorem tell_tokens (h : e.Legible) (hdot : e.isDotted = false) :
    d.tell (e.tokens.map String.toList) = .ok (d.addEvent e.asRead .nowhere) := by
  have hemit : ∀ op : Opcode, (Event.emit op).Legible → (Event.emit op).isDotted = false →
      d.tell (op.tokens.map String.toList) = d.tellInstruction op.tokens := by
    intro op h hdot
    obtain ⟨m, operands, htokens, hcolon, hdotted, -⟩ := Opcode.readInstruction_tokens h
    simp [htokens, tell, hdotted hdot, labelOf?_eq_none hcolon, Function.comp_def]
  cases e with
  | emit op => exact (hemit op h hdot).trans (tellInstruction_tokens h (by simp [Event.opcode?]))
  | jump c l =>
    exact (hemit (.jump c l) h rfl).trans (tellInstruction_tokens h (by simp [Event.opcode?]))
  | label l =>
    obtain ⟨⟨⟨hne, -⟩, -⟩, hcolon, hdot⟩ := h
    simp [Event.tokens, tell, head?_append_colon hne, hdot, labelOf?_append_colon hne hcolon,
      tellInstruction, Event.asRead]

/-- A directive adds no event. -/
theorem events_tell_dotted (hdot : e.isDotted = true)
    (h : d.tell (e.tokens.map String.toList) = .ok d') : d'.events = d.events := by
  match e, hdot with
  | .emit (.other m operands), hdot =>
    have hhead : m.toList.head? = some '.' := by simpa [Event.isDotted] using hdot
    simp only [Event.tokens, Opcode.tokens, List.map_cons, tell, hhead, if_true] at h
    split at h
    · simp at h
    · exact events_apply h

theorem tellAll_tokens : ∀ (es : List Event) (d : Draft), (∀ e ∈ es, e.Legible) →
    (∀ e ∈ es, e.isDotted = false) → ∃ d', d.tellAll (es.map fun e => e.tokens.map String.toList)
      = .ok d' ∧ d'.events.map Located.event = d.events.map Located.event ++ es.map Event.asRead
  | [], d, _, _ => ⟨d, rfl, by simp⟩
  | e :: es, d, h, hdot => by
    obtain ⟨d', hd', hevents⟩ := tellAll_tokens es (d.addEvent e.asRead .nowhere)
      (fun f hf => h f (List.mem_cons_of_mem _ hf)) fun f hf => hdot f (List.mem_cons_of_mem _ hf)
    refine ⟨d', ?_, ?_⟩
    · rw [List.map_cons, tellAll, tell_tokens (h e (by simp)) (hdot e (by simp))]
      exact hd'
    · rw [hevents]
      simp [addEvent]

theorem length_tellAll : ∀ {es : List Event} {d : Draft}, (∀ e ∈ es, e.Legible) →
    d.tellAll (es.map fun e => e.tokens.map String.toList) = .ok d' →
    d'.events.length + es.countP Event.isDotted = d.events.length + es.length
  | [], d, _, hd' => by
    obtain rfl := Except.ok.inj hd'
    rfl
  | e :: es, d, h, hd' => by
    rw [List.map_cons, tellAll] at hd'
    rcases hd₁ : d.tell (e.tokens.map String.toList) with fault | d₁
    · simp [hd₁] at hd'
    · rw [hd₁] at hd'
      have ih := length_tellAll (fun f hf => h f (List.mem_cons_of_mem _ hf)) hd'
      rw [List.length_cons]
      by_cases hdot : e.isDotted = true
      · rw [events_tell_dotted hdot hd₁] at ih
        rw [List.countP_cons_of_pos hdot]
        omega
      · rw [List.countP_cons_of_neg hdot]
        rw [tell_tokens (h e (by simp)) (by simpa using hdot)] at hd₁
        obtain rfl := Except.ok.inj hd₁
        simp only [addEvent, List.length_append, List.length_singleton] at ih
        omega

end Listing.Draft

/-- The events of a listing survive being printed and read again exactly if none of them is an
instruction whose mnemonic starts with a dot. -/
theorem reread_iff {src : String} {l : Listing} (h : Listing.parse src = .ok l) :
    (∃ l', Listing.parse (printed l.told) = .ok l' ∧ l'.told = l.told) ↔
      ∀ m operands, .emit (.other m operands) ∈ l.told → m.toList.head? ≠ some '.' := by
  have hlegible := legible_of_parse h
  have hlines := wordLines_printed fun e he => (hlegible e he).1
  have hdotted : (∀ m operands, .emit (.other m operands) ∈ l.told → m.toList.head? ≠ some '.')
      ↔ ∀ e ∈ l.told, e.isDotted = false := by
    refine ⟨fun hdot e he => ?_, fun hdot m operands he => ?_⟩
    · unfold Event.isDotted
      split
      · simpa using hdot _ _ he
      · rfl
    · simpa [Event.isDotted] using hdot _ he
  rw [exists_parse_iff, hlines, hdotted]
  constructor
  · rintro ⟨d, hd, hevents⟩ e he
    -- every line gives one event but for the dotted ones, which give none
    have hcount := Draft.length_tellAll (fun e he => (hlegible e he).1) hd
    have hlength := congrArg List.length hevents
    rw [List.length_map] at hlength
    have hzero : l.told.countP Event.isDotted = 0 := by
      simp only [Draft.blank, List.length_nil] at hcount
      omega
    simpa using List.countP_eq_zero.mp hzero e he
  · intro hdot
    obtain ⟨d, hd, hevents⟩ := Draft.tellAll_tokens l.told Draft.blank
      (fun e he => (hlegible e he).1) hdot
    refine ⟨d, hd, hevents.trans ?_⟩
    calc Draft.blank.events.map Located.event ++ l.told.map Event.asRead
        = l.told.map id := List.map_congr_left fun e he => (hlegible e he).2
      _ = l.told := List.map_id _

/-- A label that shares its line, a comment, and a semicolon that begins none. -/
def annotated : String :=
  "Top: iload_1 ; first\n  getstatic java/lang/System/out Ljava/io/PrintStream;\n\tgoto Top"

/-- What is read from `annotated`. -/
def annotatedListing : Listing where
  head := ⟨"", "", 0, 1⟩
  symbols := ∅
  events := [⟨.label "Top", ⟨0, 4⟩⟩, ⟨.emit (.load ⟨1, Slot.one_lt_total⟩), ⟨5, 12⟩⟩,
    ⟨.emit (.other "getstatic" ["java/lang/System/out", "Ljava/io/PrintStream;"]), ⟨23, 75⟩⟩,
    ⟨.jump .always "Top", ⟨77, 85⟩⟩]

theorem reread_iff_annotated : Listing.parse annotated = .ok annotatedListing
    ∧ ∃ l', Listing.parse (printed annotatedListing.told) = .ok l'
      ∧ l'.told = annotatedListing.told := by
  have hl : Listing.parse annotated = .ok annotatedListing := rfl
  refine ⟨hl, (reread_iff hl).mpr fun m operands he => ?_⟩
  obtain ⟨rfl, -⟩ : m = "getstatic" ∧ operands = _ := by
    simpa [Listing.told, annotatedListing] using he
  decide

/-- After a label a word that starts with a dot is an instruction.  Printed on a line of its own it
sets the size of the stack. -/
theorem reread_loses_dotted : ∃ l, Listing.parse "A: .limit stack 2\n" = .ok l
    ∧ l.told = [.label "A", .emit (.other ".limit" ["stack", "2"])]
    ∧ ¬ ∃ l', Listing.parse (printed l.told) = .ok l' ∧ l'.told = l.told := by
  refine ⟨⟨⟨"", "", 0, 1⟩, ∅, [⟨.label "A", ⟨0, 2⟩⟩,
    ⟨.emit (.other ".limit" ["stack", "2"]), ⟨3, 17⟩⟩]⟩, rfl, rfl, ?_⟩
  rintro ⟨l', hl', htold⟩
  have hread : Listing.parse "A:\n.limit stack 2\n"
      = .ok ⟨⟨"", "", 2, 1⟩, ∅, [⟨.label "A", ⟨0, 2⟩⟩]⟩ := rfl
  obtain rfl := Except.ok.inj (hl'.symm.trans hread)
  revert htold
  decide

end Reread

end SlotColoring
