import SlotColoring.Proofs.LineLayout

/-!
# Colons in a listing

A colon is for the label at the start of a line.  Reading holds to that for the first word, for the
mnemonic, and for the number of a slot, which has digits only (`colon_not_mem_of_readSlot`).  The
target of a jump and the operands of the other instructions are taken as they are, with a colon or
without (`readInstruction_operands`).  So in a listing that is read the colons are at labels and in
such operands, and they are at labels only exactly if no event has one in its operands.
-/

namespace SlotColoring

open Text Listing

/-- The words that an event takes over as they stand in its line. -/
def Event.operands : Event → List String
  | .emit (.jump _ l) => [l]
  | .emit (.other _ xs) => xs
  | .jump _ l => [l]
  | _ => []

/-- No operand of the event has a colon. -/
def Event.Colonless (e : Event) : Prop := ∀ x ∈ e.operands, ':' ∉ x.toList

namespace Listing

variable {ws : List (List Char)}

section Rules

/-- The line holds a directive. -/
def IsDirective (ws : List (List Char)) : Prop := ws.head?.bind List.head? = some '.'

/-- The word is a label and a colon. -/
def MarksLabel (w : List Char) : Prop := ∃ l, l ≠ [] ∧ ':' ∉ l ∧ w = l ++ [':']

/-- No word of the line has a colon, but for a label that comes first. -/
def ColonsMarkLabel : List (List Char) → Prop
  | [] => True
  | first :: rest => (':' ∈ first → MarksLabel first) ∧ ∀ w ∈ rest, ':' ∉ w

/-- The mnemonic is that of an instruction whose operands are not numbers of slots. -/
def KeepsOperands (m : String) : Prop := IsPlain m ∨ Condition.ofMnemonic? m ≠ none

/-- No word of the instruction has a colon, but for operands that are not numbers of slots. -/
def ColonsKept : List (List Char) → Prop
  | [] => True
  | m :: rest => ':' ∉ m ∧ (KeepsOperands (String.ofList m) ∨ ∀ w ∈ rest, ':' ∉ w)

/-- No word of the line has a colon, but for a label that comes first and operands that are not
numbers of slots. -/
def ColonsInPlace (ws : List (List Char)) : Prop :=
  ColonsKept ws ∨ ∃ first rest, ws = first :: rest ∧ MarksLabel first ∧ ColonsKept rest

end Rules

section Instructions

theorem isDigit_of_digitsValue? : ∀ {cs : List Char} {n k : Nat}, digitsValue? n cs = some k →
    ∀ c ∈ cs, c.isDigit = true
  | [], _, _, _ => by simp
  | c :: cs, n, k, h => by
    unfold digitsValue? at h
    split_ifs at h with hc
    intro d hd
    rcases List.mem_cons.mp hd with rfl | hd
    · exact hc
    · exact isDigit_of_digitsValue? h d hd

theorem colon_not_mem_of_numeral? {cs : List Char} {n : Nat} (h : numeral? cs = some n) :
    ':' ∉ cs := by
  have hdigits : ∀ {cs : List Char}, digitsValue? 0 cs = some n → ':' ∉ cs := by
    intro cs hcs hmem
    have hcolon := isDigit_of_digitsValue? hcs ':' hmem
    simp [Char.isDigit] at hcolon
  unfold numeral? at h
  split at h
  · simp at h
  · simp at h
  · simpa using hdigits h
  · exact hdigits h

theorem colon_not_mem_of_readSlot {word : String} {s : Slot} (h : readSlot word = .ok s) :
    ':' ∉ word.toList := by
  unfold readSlot at h
  rcases hn : numeral? word.toList with _ | n
  · simp [hn] at h
  · exact colon_not_mem_of_numeral? hn

theorem NumbersSlot.colon_not_mem {xs : List String} {s : Slot} (h : NumbersSlot xs s) :
    ∀ x ∈ xs, ':' ∉ x.toList := by
  rcases h with rfl | ⟨word, rfl, hs⟩
  · simp
  · simpa using colon_not_mem_of_readSlot hs

/-- The operands of an instruction are taken as they are, or they number a slot. -/
theorem readInstruction_operands {m : String} {xs : List String} {e : Event}
    (h : readInstruction m xs = .ok e) : ':' ∉ m.toList
      ∧ ((KeepsOperands m ∧ e.operands = xs) ∨ (e.operands = [] ∧ ∀ x ∈ xs, ':' ∉ x.toList)) := by
  obtain ⟨hcolon, hread⟩ := readInstruction_ok h
  refine ⟨hcolon, ?_⟩
  rcases hread with ⟨s, rfl, hslot⟩ | ⟨s, rfl, hslot⟩ | ⟨c, l, hcond, rfl, rfl⟩ | ⟨hplain, rfl⟩
  · exact Or.inr ⟨rfl, hslot.colon_not_mem⟩
  · exact Or.inr ⟨rfl, hslot.colon_not_mem⟩
  · exact Or.inl ⟨Or.inr (by simp [hcond]), rfl⟩
  · exact Or.inl ⟨Or.inl hplain, rfl⟩

end Instructions

section Lines

/-- What the colons of lines tell about the events that are read from them. -/
structure Admits (wss : List (List (List Char))) (new : List Event) : Prop where
  inPlace : ∀ ws ∈ wss, ¬ IsDirective ws → ColonsInPlace ws
  rule_iff : (∀ ws ∈ wss, ¬ IsDirective ws → ColonsMarkLabel ws) ↔ ∀ e ∈ new, e.Colonless

namespace Admits

theorem nil : Admits [] [] := ⟨by simp, by simp⟩

theorem append {wss wss' : List (List (List Char))} {new later : List Event}
    (h : Admits wss new) (h' : Admits wss' later) : Admits (wss ++ wss') (new ++ later) := by
  refine ⟨fun ws hws => ?_, ?_⟩
  · rcases List.mem_append.mp hws with hws | hws
    · exact h.inPlace ws hws
    · exact h'.inPlace ws hws
  · simp only [List.forall_mem_append, h.rule_iff, h'.rule_iff]

theorem directive (h : IsDirective ws) : Admits [ws] [] := ⟨by simp [h], by simp [h]⟩

theorem line {new : List Event} (hplace : ColonsInPlace ws)
    (hrule : ColonsMarkLabel ws ↔ ∀ e ∈ new, e.Colonless) (hdot : ¬ IsDirective ws) :
    Admits [ws] new := ⟨by simpa [hdot] using hplace, by simpa [hdot] using hrule⟩

end Admits

namespace Draft

variable {d d' : Draft}

theorem told_addEvent (d : Draft) (e : Event) (span : Span) :
    (d.addEvent e span).told = d.told ++ [e] := by
  simp [told, addEvent]

theorem tellInstruction_ok (h : d.tellInstruction (ws.map String.ofList) = .ok d') :
    ∃ new, d'.told = d.told ++ new ∧ ColonsKept ws
      ∧ ((∀ w ∈ ws, ':' ∉ w) ↔ ∀ e ∈ new, e.Colonless) := by
  rcases ws with _ | ⟨m, rest⟩
  · rw [← Except.ok.inj h]
    exact ⟨[], by simp, trivial, by simp⟩
  · rw [List.map_cons, tellInstruction] at h
    rcases he : readInstruction (String.ofList m) (rest.map String.ofList) with fault | e
    · simp [he] at h
    · rw [he] at h
      obtain ⟨hm, hoperands⟩ := readInstruction_operands he
      rw [String.toList_ofList] at hm
      refine ⟨[e], ?_, ⟨hm, ?_⟩, ?_⟩
      · rw [← Except.ok.inj h, told_addEvent]
      · rcases hoperands with ⟨hkeeps, -⟩ | ⟨-, hslot⟩
        · exact Or.inl hkeeps
        · exact Or.inr (by simpa using hslot)
      · rcases hoperands with ⟨-, heq⟩ | ⟨hnone, hslot⟩
        · simp [hm, Event.Colonless, heq]
        · have hrest : ∀ w ∈ rest, ':' ∉ w := by simpa using hslot
          simpa [hm, Event.Colonless, hnone] using hrest

/-- What one line adds to a draft. -/
theorem tell_ok (h : d.tell ws = .ok d') : ∃ new, d'.told = d.told ++ new ∧ Admits [ws] new := by
  rcases ws with _ | ⟨first, rest⟩
  · rw [← Except.ok.inj h]
    exact ⟨[], by simp, .line (Or.inl trivial) (by simp [ColonsMarkLabel]) (by simp [IsDirective])⟩
  · rw [tell] at h
    split_ifs at h with hdot
    · rcases hread : readDirective (String.ofList first) (rest.map String.ofList) with fault | dir
      · simp [hread] at h
      · rw [hread] at h
        refine ⟨[], ?_, .directive hdot⟩
        rw [told, events_apply h, List.append_nil, told]
    · rcases hl : labelOf? first with _ | l
      · rw [hl] at h
        obtain ⟨new, hnew, hkept, hrule⟩ := tellInstruction_ok h
        refine ⟨new, hnew, .line (Or.inl hkept) ?_ hdot⟩
        rw [← hrule]
        simp [ColonsMarkLabel, hkept.1]
      · rw [hl] at h
        obtain ⟨new, hnew, hkept, hrule⟩ := tellInstruction_ok h
        obtain ⟨hfirst, hne, hcolon⟩ := labelOf?_eq_some hl
        have hmarks : MarksLabel first := ⟨l.toList, hne, hcolon, hfirst⟩
        refine ⟨.label l :: new, ?_, .line (Or.inr ⟨first, rest, rfl, hmarks, hkept⟩) ?_ hdot⟩
        · rw [hnew, told_addEvent, List.append_assoc, List.singleton_append]
        · simpa [ColonsMarkLabel, hmarks, Event.Colonless, Event.operands] using hrule

/-- What lines add to a draft. -/
theorem tellAll_ok : ∀ {wss : List (List (List Char))} {d : Draft}, d.tellAll wss = .ok d' →
    ∃ new, d'.told = d.told ++ new ∧ Admits wss new
  | [], d, h => by
    rw [← Except.ok.inj h]
    exact ⟨[], by simp, .nil⟩
  | ws :: wss, d, h => by
    unfold tellAll at h
    rcases hd₁ : d.tell ws with fault | d₁
    · simp [hd₁] at h
    · rw [hd₁] at h
      obtain ⟨new, hnew, hadmits⟩ := tell_ok hd₁
      obtain ⟨later, hlater, hadmits'⟩ := tellAll_ok h
      exact ⟨new ++ later, by rw [hlater, hnew, List.append_assoc], hadmits.append hadmits'⟩

end Draft

theorem admits_of_parse {src : String} {l : Listing} (h : parse src = .ok l) :
    Admits (wordLines src) l.told := by
  obtain ⟨d, hd, htold⟩ := exists_parse_iff.mp ⟨l, h, rfl⟩
  obtain ⟨new, hnew, hadmits⟩ := Draft.tellAll_ok hd
  rw [← htold]
  rwa [show d.events.map Located.event = new from hnew]

end Lines

theorem forall_mem_wordLines_iff {src : String} {P : List (List Char) → Prop} :
    (∀ ws ∈ wordLines src, P ws) ↔ ∀ line ∈ lines src.toList, ∀ ws, LaidOut line ws → P ws := by
  simp [wordLines, laidOut_iff]

end Listing

/-- In a listing that is read the colons are at labels and in the operands that are taken as they
are, and they are at labels only exactly if no event has a colon in its operands. -/
theorem colons_exact {src : String} {l : Listing} (h : parse src = .ok l) :
    (∀ line ∈ lines src.toList, ∀ ws, LaidOut line ws → ¬ IsDirective ws → ColonsInPlace ws)
      ∧ ((∀ line ∈ lines src.toList, ∀ ws, LaidOut line ws → ¬ IsDirective ws →
          ColonsMarkLabel ws) ↔ ∀ e ∈ l.told, ∀ x ∈ e.operands, ':' ∉ x.toList) := by
  have hadmits := admits_of_parse h
  rw [← forall_mem_wordLines_iff, ← forall_mem_wordLines_iff]
  exact ⟨hadmits.inPlace, hadmits.rule_iff⟩

/-- Colons at a label, in the target of a jump, in a comment and in a directive. -/
def fourColons : String := "Top: goto a:b ; c:d\n.var v:w 1\n\tiload +1\n"

theorem colons_exact_fourColons : ∃ l, parse fourColons = .ok l
    ∧ (∀ line ∈ lines fourColons.toList, ∀ ws, LaidOut line ws → ¬ IsDirective ws →
        ColonsInPlace ws)
    ∧ ¬ ∀ line ∈ lines fourColons.toList, ∀ ws, LaidOut line ws → ¬ IsDirective ws →
        ColonsMarkLabel ws := by
  have hl : parse fourColons = .ok _ := rfl
  obtain ⟨hplace, hrule⟩ := colons_exact hl
  refine ⟨_, hl, hplace, hrule.not.mpr fun hcolonless => ?_⟩
  have hgoto : Event.jump .always "a:b" ∈ [.label "Top", .jump .always "a:b",
      .emit (.load ⟨1, Slot.one_lt_total⟩)] := by simp
  exact hcolonless _ hgoto "a:b" (by simp [Event.operands]) (by decide)

/-- An operand is read although it has a colon. -/
theorem colon_in_operand_read : ∃ l, parse "ldc a:b\n" = .ok l
    ∧ l.told = [.emit (.other "ldc" ["a:b"])]
    ∧ ¬ ∀ line ∈ lines "ldc a:b\n".toList, ∀ ws, LaidOut line ws → ¬ IsDirective ws →
        ColonsMarkLabel ws := by
  refine ⟨_, rfl, rfl, fun hrule => ?_⟩
  have hline := hrule "ldc a:b\n".toList (by decide) ["ldc".toList, "a:b".toList]
    (laidOut_iff.mpr rfl) (by simp [IsDirective])
  exact hline.2 "a:b".toList (by simp) (by decide)

end SlotColoring
