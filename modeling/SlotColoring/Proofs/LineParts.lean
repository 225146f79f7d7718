import Mathlib.Data.List.Basic
import SlotColoring.Proofs.PrintedEvents

/-!
# The parts of a line

Without its comment and the blanks around it a line is empty or neat (`neat_content`).  A neat text
is a directive, a label, a label with an instruction after it, or an instruction (`Neat.shape`), and
what is read from it, and from where, goes by that shape (`Draft.readText_labelled` and its
siblings).
-/

namespace SlotColoring

namespace Text

variable {c : Char} {cs w rest : List Char}

section Bytes

@[simp]
theorem byteCount_nil : byteCount [] = 0 := rfl

@[simp]
theorem byteCount_cons (c : Char) (cs : List Char) :
    byteCount (c :: cs) = c.utf8Size + byteCount cs := rfl

@[simp]
theorem byteCount_append (cs ds : List Char) :
    byteCount (cs ++ ds) = byteCount cs + byteCount ds := sumOf_append _ cs ds

theorem byteCount_pos (h : cs ≠ []) : 0 < byteCount cs := by
  rcases cs with _ | ⟨c, cs⟩
  · exact absurd rfl h
  · have := c.utf8Size_pos
    rw [byteCount_cons]
    omega

theorem utf8ByteSize_ofList : ∀ cs : List Char, (String.ofList cs).utf8ByteSize = byteCount cs
  | [] => by simp
  | c :: cs => by
    rw [← List.singleton_append, String.ofList_append, String.utf8ByteSize_append,
      utf8ByteSize_ofList cs, ← String.singleton_eq_ofList, String.utf8ByteSize_singleton]
    rfl

theorem byteCount_toList (s : String) : byteCount s.toList = s.utf8ByteSize := by
  rw [← utf8ByteSize_ofList, String.ofList_toList]

end Bytes

section Lines

theorem flatten_lines : ∀ cs : List Char, (lines cs).flatten = cs
  | [] => rfl
  | c :: cs => by
    have ih := flatten_lines cs
    unfold lines
    split_ifs
    · rw [List.flatten_cons, ih, List.singleton_append]
    · rcases hlines : lines cs with _ | ⟨l, ls⟩
      · rw [hlines] at ih
        rw [← ih]
        rfl
      · rw [hlines, List.flatten_cons] at ih
        simp [ih]

/-- A line feed ends its line. -/
theorem lineFeed_not_mem_dropLast : ∀ {cs line : List Char}, line ∈ lines cs →
    line ≠ [] ∧ '\n' ∉ line.dropLast
  | [], line, h => by simp [lines] at h
  | c :: cs, line, h => by
    have ih : ∀ l ∈ lines cs, l ≠ [] ∧ '\n' ∉ l.dropLast := fun l => lineFeed_not_mem_dropLast
    unfold lines at h
    split_ifs at h with hc
    · rcases List.mem_cons.mp h with rfl | h
      · simp
      · exact ih line h
    · rcases hlines : lines cs with _ | ⟨l, ls⟩ <;> rw [hlines] at h ih
      · obtain rfl := List.mem_singleton.mp h
        simp
      · rcases List.mem_cons.mp h with rfl | h
        · obtain ⟨hne, hfeed⟩ := ih l (by simp)
          rw [List.dropLast_cons_of_ne_nil hne]
          simp [hfeed, Ne.symm hc]
        · exact ih line (List.mem_cons_of_mem _ h)

end Lines

section Words

theorem words_of_isWord (h : IsWord w) : words w = [w] := by
  have hblank : ∀ c ∈ [' '], isBlank c = true := by simp [show isBlank ' ' = true by decide]
  rw [← words_append_blanks hblank w, words_append_blank (hblank ' ' (by simp)) h]
  rfl

/-- The first word ends where the text ends or a blank stands. -/
theorem words_append_rest (hw : IsWord w) (hrest : ∀ c, rest.head? = some c → isBlank c = true) :
    words (w ++ rest) = w :: words rest := by
  rcases rest with _ | ⟨b, rest⟩
  · rw [List.append_nil, words_of_isWord hw]
    rfl
  · rw [words_append_blank (hrest b rfl) hw, words_cons_blank (hrest b rfl)]

theorem exists_first_word (h : ∀ c, cs.head? = some c → isBlank c = false) (hne : cs ≠ []) :
    ∃ w rest, cs = w ++ rest ∧ IsWord w ∧ ∀ c, rest.head? = some c → isBlank c = true := by
  refine ⟨cs.takeWhile fun c => !isBlank c, cs.dropWhile fun c => !isBlank c,
    List.takeWhile_append_dropWhile.symm, ⟨?_, fun c hc => ?_⟩, fun c hc => ?_⟩
  · rcases cs with _ | ⟨c, cs⟩
    · exact absurd rfl hne
    · simp [h c rfl]
  · simpa using List.mem_takeWhile_imp hc
  · have := List.head?_dropWhile_not (fun c => !isBlank c) cs
    rw [hc] at this
    simpa using this

end Words

section Trimming

theorem trimEnd_split (cs : List Char) :
    ∃ gap, (∀ c ∈ gap, isBlank c = true) ∧ cs = trimEnd cs ++ gap := by
  refine ⟨(cs.reverse.takeWhile isBlank).reverse, fun c hc => ?_, ?_⟩
  · exact List.mem_takeWhile_imp (List.mem_reverse.mp hc)
  · rw [trimEnd, ← List.reverse_append, List.takeWhile_append_dropWhile, List.reverse_reverse]

theorem head?_trimStart (h : (trimStart cs).head? = some c) : isBlank c = false := by
  have := List.head?_dropWhile_not isBlank cs
  rw [← trimStart, h] at this
  simpa using this

theorem getLast?_trimEnd (h : (trimEnd cs).getLast? = some c) : isBlank c = false := by
  have := List.head?_dropWhile_not isBlank cs.reverse
  rw [trimEnd, List.getLast?_reverse] at h
  rw [h] at this
  simpa using this

theorem trimStart_eq_self (h : ∀ c, cs.head? = some c → isBlank c = false) : trimStart cs = cs := by
  rcases cs with _ | ⟨c, cs⟩
  · rfl
  · rw [trimStart, List.dropWhile_cons_of_neg (by simp [h c rfl])]

theorem trimEnd_eq_self (h : ∀ c, cs.getLast? = some c → isBlank c = false) : trimEnd cs = cs := by
  have hreverse : trimStart cs.reverse = cs.reverse := trimStart_eq_self (by simpa using h)
  rw [trimEnd, ← trimStart, hreverse, List.reverse_reverse]

theorem byteCount_trimStart (cs : List Char) :
    byteCount (cs.takeWhile isBlank) + byteCount (trimStart cs) = byteCount cs := by
  rw [← byteCount_append, trimStart, List.takeWhile_append_dropWhile]

end Trimming

end Text

open Text

namespace Listing

variable {cs w rest text : List Char}

section Comments

/-- Whether a blank stands just before what follows the text. -/
def endsBlank (afterBlank : Bool) (cs : List Char) : Bool :=
  (cs.getLast?.map isBlank).getD afterBlank

theorem endsBlank_cons (a : Bool) (c : Char) (cs : List Char) :
    endsBlank a (c :: cs) = endsBlank (isBlank c) cs := by
  unfold endsBlank
  rw [List.getLast?_cons]
  rcases cs.getLast? with _ | d <;> rfl

theorem endsBlank_append (a : Bool) (ds : List Char) : ∀ cs : List Char,
    endsBlank a (cs ++ ds) = endsBlank (endsBlank a cs) ds
  | [] => rfl
  | [c] => by
    rw [List.singleton_append, endsBlank_cons]
    rfl
  | c :: d :: cs => by
    rw [List.cons_append, endsBlank_cons, endsBlank_cons a, endsBlank_append _ ds (d :: cs)]

theorem endsBlank_of_blanks {gap : List Char} (h : ∀ c ∈ gap, isBlank c = true) :
    endsBlank true gap = true := by
  unfold endsBlank
  rcases hlast : gap.getLast? with _ | c
  · rfl
  · exact h c (List.mem_of_getLast? hlast)

/-- A semicolon stands only where no blank is just before it. -/
def Uncommented (afterBlank : Bool) (cs : List Char) : Prop :=
  ∀ before after, cs = before ++ ';' :: after → endsBlank afterBlank before = false

theorem uncommented_stripComment : ∀ (cs : List Char) (a : Bool),
    Uncommented a (stripComment a cs)
  | [], a => fun before after h => by simp [stripComment] at h
  | c :: cs, a => fun before after h => by
    unfold stripComment at h
    split_ifs at h with hcomment
    · simp at h
    · rcases before with _ | ⟨d, before⟩
      · obtain ⟨rfl, -⟩ := List.cons.inj h
        simpa [endsBlank] using hcomment
      · obtain ⟨rfl, hrest⟩ := List.cons.inj h
        rw [endsBlank_cons]
        exact uncommented_stripComment cs _ before after hrest

theorem stripComment_of_uncommented : ∀ {cs : List Char} {a : Bool}, Uncommented a cs →
    stripComment a cs = cs
  | [], _, _ => rfl
  | c :: cs, a, h => by
    have hcomment : ¬ (c = ';' ∧ a = true) := by
      rintro ⟨rfl, rfl⟩
      simpa [endsBlank] using h [] cs rfl
    rw [stripComment, if_neg hcomment, stripComment_of_uncommented]
    intro before after hsplit
    rw [← endsBlank_cons a]
    exact h (c :: before) after (by rw [hsplit, List.cons_append])

/-- What is stripped begins with a semicolon at the start or after a blank. -/
theorem stripComment_split : ∀ (cs : List Char) (a : Bool),
    ∃ comment, cs = stripComment a cs ++ comment ∧ (comment = []
      ∨ comment.head? = some ';' ∧ endsBlank a (stripComment a cs) = true)
  | [], _ => ⟨[], rfl, Or.inl rfl⟩
  | c :: cs, a => by
    unfold stripComment
    split_ifs with hcomment
    · exact ⟨c :: cs, rfl, Or.inr ⟨by rw [hcomment.1]; rfl, by simpa [endsBlank] using hcomment.2⟩⟩
    · obtain ⟨comment, hsplit, hends⟩ := stripComment_split cs (isBlank c)
      refine ⟨comment, by rw [List.cons_append, ← hsplit], ?_⟩
      rwa [endsBlank_cons]

/-- A part that begins at the start or after a blank has no comment if the whole has none. -/
theorem Uncommented.part {a : Bool} {before after : List Char}
    (h : Uncommented a (before ++ text ++ after)) (hbefore : endsBlank a before = true) :
    Uncommented true text := by
  intro front back hsplit
  have hends := h (before ++ front) (back ++ after) (by simp [hsplit])
  rwa [endsBlank_append, hbefore] at hends

end Comments

section Neat

/-- A piece of one line that is not empty and has neither blanks at its ends nor a comment. -/
structure Neat (text : List Char) : Prop where
  nonempty : text ≠ []
  starts : ∀ c, text.head? = some c → isBlank c = false
  ends : ∀ c, text.getLast? = some c → isBlank c = false
  oneLine : '\n' ∉ text
  uncommented : Uncommented true text

theorem neat_of_isToken (h : IsToken w) : Neat w where
  nonempty := h.1.1
  starts c hc := h.1.2 c (List.mem_of_mem_head? hc)
  ends c hc := h.1.2 c (List.mem_of_getLast? hc)
  oneLine := lineFeed_not_mem h.1
  uncommented := by
    have hstrip : stripComment true w = w := by
      simpa [stripComment] using (Spells.token h).strip []
    rw [← hstrip]
    exact uncommented_stripComment w true

/-- The blanks in front of what a line says. -/
def indentOf (line : List Char) : List Char := (stripComment true line).takeWhile isBlank

/-- What a line says, without its comment and the blanks around it. -/
def content (line : List Char) : List Char := trimEnd (trimStart (stripComment true line))

/-- Blanks, and then the end of the line or a comment. -/
def IsTail (tail : List Char) : Prop :=
  ∃ gap comment, tail = gap ++ comment ∧ (∀ c ∈ gap, isBlank c = true)
    ∧ (comment = [] ∨ gap ≠ [] ∧ comment.head? = some ';')

variable {line : List Char}

theorem isBlank_of_mem_indentOf : ∀ c ∈ indentOf line, isBlank c = true := fun _ hc =>
  List.mem_takeWhile_imp hc

theorem stripComment_eq (line : List Char) : ∃ gap, (∀ c ∈ gap, isBlank c = true)
    ∧ stripComment true line = indentOf line ++ content line ++ gap := by
  obtain ⟨gap, hgap, hsplit⟩ := trimEnd_split (trimStart (stripComment true line))
  refine ⟨gap, hgap, ?_⟩
  rw [List.append_assoc, content, ← hsplit, indentOf, trimStart, List.takeWhile_append_dropWhile]

theorem getLast?_content {c : Char} (h : (content line).getLast? = some c) : isBlank c = false :=
  getLast?_trimEnd h

theorem head?_content {c : Char} (h : (content line).head? = some c) : isBlank c = false := by
  obtain ⟨gap, -, hsplit⟩ := trimEnd_split (trimStart (stripComment true line))
  have hhead : (trimStart (stripComment true line)).head? = some c := by
    rw [hsplit, List.head?_append, ← content, h]
    rfl
  exact head?_trimStart hhead

theorem exists_tail (hne : content line ≠ []) :
    ∃ tail, IsTail tail ∧ line = indentOf line ++ content line ++ tail := by
  obtain ⟨comment, hline, hcomment⟩ := stripComment_split line true
  obtain ⟨gap, hgap, hcode⟩ := stripComment_eq line
  refine ⟨gap ++ comment, ⟨gap, comment, rfl, hgap, hcomment.imp_right ?_⟩, ?_⟩
  · rintro ⟨hsemi, hends⟩
    refine ⟨?_, hsemi⟩
    rintro rfl
    have hlast := List.getLast?_eq_some_getLast hne
    rw [hcode, List.append_nil, endsBlank, List.getLast?_append, hlast] at hends
    simp [getLast?_content hlast] at hends
  · rw [← List.append_assoc, ← hcode, ← hline]

theorem neat_content (hfeed : '\n' ∉ line.dropLast) (hne : content line ≠ []) :
    Neat (content line) where
  nonempty := hne
  starts _ := head?_content
  ends _ := getLast?_content
  oneLine := by
    obtain ⟨tail, -, hline⟩ := exists_tail hne
    obtain ⟨front, last, hlast⟩ := (List.eq_nil_or_concat (content line)).resolve_left hne
    have hblank : isBlank last = false := getLast?_content (by rw [hlast]; simp)
    intro hmem
    rw [hlast, List.concat_eq_append] at hline hmem
    rcases List.mem_append.mp hmem with hmem | hmem
    · refine hfeed ?_
      rw [hline]
      simp [hmem]
    · obtain rfl := List.mem_singleton.mp hmem
      simp [isBlank_lineFeed] at hblank
  uncommented := by
    obtain ⟨gap, -, hcode⟩ := stripComment_eq line
    have huncommented := uncommented_stripComment line true
    rw [hcode] at huncommented
    exact huncommented.part (endsBlank_of_blanks isBlank_of_mem_indentOf)

end Neat

section Shapes

/-- The text begins with a label. -/
def Labelled (text : List Char) : Prop :=
  ∃ (l : Label) (rest : List Char), (Event.label l).Legible ∧ text = l.toList ++ [':'] ++ rest
    ∧ ∀ c, rest.head? = some c → isBlank c = true

theorem isToken_of_legible {l : Label} (h : (Event.label l).Legible) :
    IsToken (l.toList ++ [':']) := by
  have htokens := Event.isToken_of_mem_tokens h (l ++ ":") (by simp [Event.tokens])
  rwa [String.toList_append] at htokens

theorem head?_of_labelled (h : Labelled text) : text.head? ≠ some '.' := by
  obtain ⟨l, rest, hl, rfl, -⟩ := h
  rw [List.append_assoc, List.head?_append_of_ne_nil _ hl.1.1.1]
  exact hl.2.2

theorem words_of_labelled (h : Labelled text) :
    ∃ (l : Label) (rest : List Char), words text = (l.toList ++ [':']) :: words rest := by
  obtain ⟨l, rest, hl, rfl, hrest⟩ := h
  exact ⟨l, rest, words_append_rest (isToken_of_legible hl).1 hrest⟩

/-- What a neat text can be. -/
inductive Shape : List Char → Prop where
  | directive {text : List Char} (neat : Neat text) (dot : text.head? = some '.') : Shape text
  | label {l : Label} (legible : (Event.label l).Legible) : Shape (l.toList ++ [':'])
  | labelled {l : Label} {gap rest : List Char} (legible : (Event.label l).Legible)
      (gap_ne : gap ≠ []) (blank : ∀ c ∈ gap, isBlank c = true) (neat : Neat rest) :
      Shape (l.toList ++ [':'] ++ gap ++ rest)
  | instruction {text : List Char} (neat : Neat text) (dot : text.head? ≠ some '.')
      (bare : ¬ Labelled text) : Shape text

/-- What follows a first word and blanks is neat as well. -/
theorem Neat.after {before gap : List Char} (h : Neat (before ++ gap ++ rest)) (hgap : gap ≠ [])
    (hblank : ∀ c ∈ gap, isBlank c = true) (hne : rest ≠ [])
    (hstarts : ∀ c, rest.head? = some c → isBlank c = false) : Neat rest where
  nonempty := hne
  starts := hstarts
  ends c hc := h.ends c (by rw [List.getLast?_append, hc]; rfl)
  oneLine hmem := h.oneLine (List.mem_append_right _ hmem)
  uncommented := by
    have hends : endsBlank true (before ++ gap) = true := by
      rw [endsBlank, List.getLast?_append, List.getLast?_eq_some_getLast hgap]
      exact hblank _ (List.getLast_mem hgap)
    have hwhole := h.uncommented
    rw [← List.append_nil (before ++ gap ++ rest)] at hwhole
    exact hwhole.part hends

theorem Neat.legible_of_labelOf? {l : Label} (h : Neat (w ++ rest)) (hw : IsWord w)
    (hdot : w.head? ≠ some '.') (hl : labelOf? w = some l) :
    w = l.toList ++ [':'] ∧ (Event.label l).Legible := by
  obtain ⟨rfl, hne, hcolon⟩ := labelOf?_eq_some hl
  rw [head?_append_colon hne] at hdot
  have hsemi : l.toList.head? ≠ some ';' := fun hsemi => by
    obtain ⟨cs, hcs⟩ := List.head?_eq_some_iff.mp hsemi
    simpa [endsBlank] using h.uncommented [] _ (by rw [hcs]; rfl)
  exact ⟨rfl, ⟨⟨hne, fun c hc => hw.2 c (List.mem_append_left _ hc)⟩, hsemi⟩, hcolon, hdot⟩

theorem Neat.shape (h : Neat text) : Shape text := by
  by_cases hdot : text.head? = some '.'
  · exact .directive h hdot
  obtain ⟨w, rest, rfl, hw, hrest⟩ := exists_first_word h.starts h.nonempty
  rw [List.head?_append_of_ne_nil _ hw.1] at hdot
  rcases hl : labelOf? w with _ | l
  · refine .instruction h (by rwa [List.head?_append_of_ne_nil _ hw.1]) fun hlabelled => ?_
    obtain ⟨l, rest', hl', hsplit, hrest'⟩ := hlabelled
    have hwords := words_append_rest (isToken_of_legible hl').1 hrest'
    rw [← hsplit, words_append_rest hw hrest] at hwords
    rw [(List.cons.inj hwords).1, labelOf?_append_colon hl'.1.1.1 hl'.2.1] at hl
    simp at hl
  · obtain ⟨rfl, hlegible⟩ := h.legible_of_labelOf? hw hdot hl
    by_cases hempty : rest = []
    · rw [hempty, List.append_nil]
      exact .label hlegible
    · have hsplit : rest = rest.takeWhile isBlank ++ trimStart rest :=
        List.takeWhile_append_dropWhile.symm
      have hblank : ∀ c ∈ rest.takeWhile isBlank, isBlank c = true := fun c hc =>
        List.mem_takeWhile_imp hc
      have hgap : rest.takeWhile isBlank ≠ [] := by
        obtain ⟨b, rest', rfl⟩ := List.exists_cons_of_ne_nil hempty
        simp [hrest b rfl]
      rw [hsplit, ← List.append_assoc] at h ⊢
      have hafter : trimStart rest ≠ [] := fun hnil => by
        rw [hnil, List.append_nil] at h
        have hends := h.ends _ (by
          rw [List.getLast?_append, List.getLast?_eq_some_getLast hgap, Option.some_or])
        simp [hblank _ (List.getLast_mem hgap)] at hends
      exact .labelled hlegible hgap hblank (h.after hgap hblank hafter fun c => head?_trimStart)

end Shapes

section Reading

theorem Neat.exists_words (h : Neat text) :
    ∃ w ws, words text = w :: ws ∧ w.head? = text.head? := by
  obtain ⟨w, rest, rfl, hw, hrest⟩ := exists_first_word h.starts h.nonempty
  exact ⟨w, words rest, words_append_rest hw hrest, (List.head?_append_of_ne_nil _ hw.1).symm⟩

namespace Draft

variable {l : Label} {gap : List Char} {d : Draft} {lo : Nat}

theorem readLine_eq (d : Draft) (line : List Char) (start : Nat) :
    d.readLine line start = d.readText (content line) (start + byteCount (indentOf line)) := rfl

theorem readText_nil (d : Draft) (lo : Nat) : d.readText [] lo = .ok d := rfl

theorem readText_directive (h : Neat text) (hdot : text.head? = some '.') : ∃ name operands,
    d.readText text lo = d.readDirectiveAt name operands ⟨lo, lo + byteCount text⟩ := by
  obtain ⟨w, ws, hwords, hhead⟩ := h.exists_words
  refine ⟨String.ofList w, ws.map String.ofList, ?_⟩
  simp [readText, hwords, hhead, hdot]

theorem readText_instruction (h : Neat text) (hdot : text.head? ≠ some '.')
    (hbare : ¬ Labelled text) :
    d.readText text lo = d.readInstructionAt (words text) ⟨lo, lo + byteCount text⟩ := by
  obtain ⟨w, rest, rfl, hw, hrest⟩ := exists_first_word h.starts h.nonempty
  rw [List.head?_append_of_ne_nil _ hw.1] at hdot
  have hlabel : labelOf? w = none := by
    rcases hl : labelOf? w with _ | l
    · rfl
    · obtain ⟨rfl, hlegible⟩ := h.legible_of_labelOf? hw hdot hl
      exact absurd ⟨l, rest, hlegible, rfl, hrest⟩ hbare
  simp only [readText, words_append_rest hw hrest, hdot, if_false, hlabel]

theorem readText_labelled_rest (hl : (Event.label l).Legible)
    (hrest : ∀ c, rest.head? = some c → isBlank c = true) :
    d.readText (l.toList ++ [':'] ++ rest) lo
      = (d.addEvent (.label l) ⟨lo, lo + byteCount (l.toList ++ [':'])⟩).readInstructionAt
          (words rest) ⟨lo + byteCount (l.toList ++ [':'] ++ rest) - byteCount (trimStart rest),
            lo + byteCount (l.toList ++ [':'] ++ rest)⟩ := by
  have hwords := words_append_rest (isToken_of_legible hl).1 hrest
  have hdot : (l.toList ++ [':']).head? ≠ some '.' := by
    rw [head?_append_colon hl.1.1.1]
    exact hl.2.2
  simp only [readText, hwords, hdot, if_false, labelOf?_append_colon hl.1.1.1 hl.2.1,
    List.drop_left]

theorem readText_label (hl : (Event.label l).Legible) : d.readText (l.toList ++ [':']) lo
    = .ok (d.addEvent (.label l) ⟨lo, lo + byteCount (l.toList ++ [':'])⟩) := by
  have h : d.readText (l.toList ++ [':'] ++ []) lo = _ := readText_labelled_rest hl (by simp)
  rwa [List.append_nil] at h

theorem readText_labelled (hl : (Event.label l).Legible) (hgap : gap ≠ [])
    (hblank : ∀ c ∈ gap, isBlank c = true) (h : Neat rest) :
    d.readText (l.toList ++ [':'] ++ gap ++ rest) lo
      = (d.addEvent (.label l) ⟨lo, lo + byteCount (l.toList ++ [':'])⟩).readInstructionAt
          (words rest) ⟨lo + byteCount (l.toList ++ [':'] ++ gap),
            lo + byteCount (l.toList ++ [':'] ++ gap ++ rest)⟩ := by
  have hstart : ∀ c, (gap ++ rest).head? = some c → isBlank c = true := fun c hc => by
    rw [List.head?_append_of_ne_nil _ hgap] at hc
    exact hblank c (List.mem_of_mem_head? hc)
  have htrim : trimStart (gap ++ rest) = rest := by
    rw [trimStart, List.dropWhile_append_of_pos hblank]
    exact trimStart_eq_self h.starts
  have hlo : lo + byteCount (l.toList ++ [':'] ++ (gap ++ rest)) - byteCount rest
      = lo + byteCount (l.toList ++ [':'] ++ gap) := by
    simp only [byteCount_append]
    omega
  rw [List.append_assoc _ gap rest, readText_labelled_rest hl hstart, htrim, hlo,
    words_blanks_append hblank]

end Draft

end Reading

end Listing

end SlotColoring
