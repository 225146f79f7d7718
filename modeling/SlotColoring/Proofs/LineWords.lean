import Mathlib.Data.List.TakeWhile
import SlotColoring.Listing.Parser

/-!
# The words of a line

A word is cut off at the first blank after it (`words_append_blank`), and blanks at either end of a
text make no difference to its words.  A semicolon inside a word is no comment, and no word that is
left once the comment is gone starts with one (`isToken_of_mem_words`).  So tokens with blanks
between them are the words of the line that they make, whatever comment follows (`Spells`).
-/

namespace SlotColoring

namespace Text

variable {b c : Char} {cs w rest : List Char}

/-- Nothing but characters that are not blank, and at least one of them. -/
def IsWord (w : List Char) : Prop := w ≠ [] ∧ ∀ c ∈ w, isBlank c = false

section Words

theorem words_cons_blank (hc : isBlank c = true) : words (c :: cs) = words cs := by
  rcases cs with _ | ⟨d, cs⟩ <;> simp [words, hc]

theorem words_singleton (hc : isBlank c = false) : words [c] = [[c]] := by
  simp [words, hc]

theorem words_before_blank {d : Char} (hc : isBlank c = false) (hd : isBlank d = true) :
    words (c :: d :: cs) = [c] :: words (d :: cs) := by
  rw [words, if_neg (by simp [hc]), if_pos hd]

theorem words_before_word {d : Char} {ws : List (List Char)} (hc : isBlank c = false)
    (hd : isBlank d = false) (h : words (d :: cs) = w :: ws) :
    words (c :: d :: cs) = (c :: w) :: ws := by
  rw [words, if_neg (by simp [hc]), if_neg (by simp [hd]), h]

/-- A character that is no blank begins the first word. -/
theorem words_cons : ∀ (cs : List Char) {c : Char}, isBlank c = false →
    ∃ w ws, words (c :: cs) = (c :: w) :: ws
  | [], c, hc => ⟨[], [], words_singleton hc⟩
  | d :: cs, c, hc => by
    by_cases hd : isBlank d = true
    · exact ⟨[], _, words_before_blank hc hd⟩
    · simp only [Bool.not_eq_true] at hd
      obtain ⟨w, ws, hwords⟩ := words_cons cs hd
      exact ⟨d :: w, ws, words_before_word hc hd hwords⟩

theorem words_append_blank (hb : isBlank b = true) : ∀ {w : List Char}, IsWord w →
    words (w ++ b :: rest) = w :: words rest
  | [], h => absurd rfl h.1
  | [c], h => by
    have hc := h.2 c (by simp)
    rw [List.singleton_append, words_before_blank hc hb, words_cons_blank hb]
  | c :: d :: w, h => by
    have hc := h.2 c (by simp)
    have hd := h.2 d (by simp)
    refine words_before_word hc hd ?_
    exact words_append_blank hb ⟨by simp, fun e he => h.2 e (List.mem_cons_of_mem _ he)⟩

theorem isWord_of_mem_words : ∀ {cs : List Char}, ∀ w ∈ words cs, IsWord w
  | [], w, hw => by simp [words] at hw
  | [c], w, hw => by
    by_cases hc : isBlank c = true
    · rw [words_cons_blank hc] at hw
      exact isWord_of_mem_words w hw
    · simp only [Bool.not_eq_true] at hc
      rw [words_singleton hc, List.mem_singleton] at hw
      subst hw
      simp [IsWord, hc]
  | c :: d :: cs, w, hw => by
    have ih : ∀ w ∈ words (d :: cs), IsWord w := isWord_of_mem_words
    by_cases hc : isBlank c = true
    · rw [words_cons_blank hc] at hw
      exact ih w hw
    simp only [Bool.not_eq_true] at hc
    by_cases hd : isBlank d = true
    · rw [words_before_blank hc hd] at hw
      rcases List.mem_cons.mp hw with rfl | hw
      · simp [IsWord, hc]
      · exact ih w hw
    · simp only [Bool.not_eq_true] at hd
      obtain ⟨v, vs, hwords⟩ := words_cons cs hd
      rw [words_before_word hc hd hwords] at hw
      rw [hwords] at ih
      rcases List.mem_cons.mp hw with rfl | hw
      · refine ⟨by simp, fun e he => ?_⟩
        rcases List.mem_cons.mp he with rfl | he
        · exact hc
        · exact (ih _ List.mem_cons_self).2 e he
      · exact ih w (List.mem_cons_of_mem _ hw)

theorem words_trimStart : ∀ cs : List Char, words (trimStart cs) = words cs
  | [] => rfl
  | c :: cs => by
    unfold trimStart
    by_cases hc : isBlank c = true
    · rw [List.dropWhile_cons_of_pos hc, words_cons_blank hc]
      exact words_trimStart cs
    · rw [List.dropWhile_cons_of_neg hc]

theorem words_of_blanks : ∀ {cs : List Char}, (∀ c ∈ cs, isBlank c = true) → words cs = []
  | [], _ => rfl
  | c :: cs, h => by
    rw [words_cons_blank (h c (by simp))]
    exact words_of_blanks fun d hd => h d (List.mem_cons_of_mem _ hd)

theorem words_append_blanks (hrest : ∀ c ∈ rest, isBlank c = true) :
    ∀ cs : List Char, words (cs ++ rest) = words cs
  | [] => words_of_blanks hrest
  | [c] => by
    by_cases hc : isBlank c = true
    · rw [List.singleton_append, words_cons_blank hc, words_cons_blank hc, words_of_blanks hrest]
      rfl
    · simp only [Bool.not_eq_true] at hc
      rcases rest with _ | ⟨b, rest⟩
      · rfl
      · have hb := hrest b (by simp)
        rw [List.singleton_append, words_before_blank hc hb, words_of_blanks hrest,
          words_singleton hc]
  | c :: d :: cs => by
    have ih : words (d :: (cs ++ rest)) = words (d :: cs) := words_append_blanks hrest (d :: cs)
    rw [List.cons_append, List.cons_append]
    by_cases hc : isBlank c = true
    · rw [words_cons_blank hc, words_cons_blank hc, ih]
    simp only [Bool.not_eq_true] at hc
    by_cases hd : isBlank d = true
    · rw [words_before_blank hc hd, words_before_blank hc hd, ih]
    · simp only [Bool.not_eq_true] at hd
      obtain ⟨w, ws, hwords⟩ := words_cons cs hd
      rw [words_before_word hc hd (ih.trans hwords), words_before_word hc hd hwords]

theorem words_trimEnd (cs : List Char) : words (trimEnd cs) = words cs := by
  have hsplit : trimEnd cs ++ (cs.reverse.takeWhile isBlank).reverse = cs := by
    rw [trimEnd, ← List.reverse_append, List.takeWhile_append_dropWhile, List.reverse_reverse]
  have hblanks : ∀ c ∈ (cs.reverse.takeWhile isBlank).reverse, isBlank c = true := fun c hc =>
    List.mem_takeWhile_imp (List.mem_reverse.mp hc)
  calc words (trimEnd cs)
      = words (trimEnd cs ++ (cs.reverse.takeWhile isBlank).reverse) :=
        (words_append_blanks hblanks _).symm
    _ = words cs := by rw [hsplit]

end Words

section Lines

theorem lines_append (hw : '\n' ∉ w) : lines (w ++ '\n' :: rest) = (w ++ ['\n']) :: lines rest := by
  induction w with
  | nil => simp [lines]
  | cons c w ih =>
    simp only [List.mem_cons, not_or] at hw
    simp [lines, Ne.symm hw.1, ih hw.2]

/-- A text that is written line by line is read line by line. -/
theorem lines_flatMap : ∀ {ls : List (List Char)}, (∀ w ∈ ls, '\n' ∉ w) →
    lines (ls.flatMap fun w => w ++ ['\n']) = ls.map fun w => w ++ ['\n']
  | [], _ => rfl
  | w :: ls, h => by
    rw [List.flatMap_cons, List.append_assoc, List.singleton_append, lines_append (h w (by simp)),
      lines_flatMap fun v hv => h v (List.mem_cons_of_mem _ hv), List.map_cons]

theorem lines_of_oneLine (hne : w ≠ []) (hw : '\n' ∉ w) : lines w = [w] := by
  induction w with
  | nil => exact absurd rfl hne
  | cons c w ih =>
    simp only [List.mem_cons, not_or] at hw
    rw [lines, if_neg (Ne.symm hw.1)]
    rcases w with _ | ⟨d, w⟩
    · rfl
    · rw [ih (by simp) hw.2]

end Lines

end Text

namespace Listing

open Text

variable {b c : Char} {cs w rest : List Char} {ws : List (List Char)} {afterBlank : Bool}

/-- A word that does not begin a comment. -/
def IsToken (w : List Char) : Prop := IsWord w ∧ w.head? ≠ some ';'

theorem isToken_iff : IsToken w ↔
    (!w.isEmpty && w.all (fun c => !isBlank c) && w.head? != some ';') = true := by
  simp [IsToken, IsWord]

theorem isBlank_space : isBlank ' ' = true := by decide

theorem isBlank_lineFeed : isBlank '\n' = true := by decide

section Comments

theorem ne_semicolon_of_isBlank (hc : isBlank c = true) : c ≠ ';' := by
  rintro rfl
  revert hc
  decide

theorem stripComment_cons_blank (hc : isBlank c = true) :
    stripComment afterBlank (c :: cs) = c :: stripComment true cs := by
  rw [stripComment, if_neg fun h => ne_semicolon_of_isBlank hc h.1, hc]

theorem stripComment_append_word : ∀ {w : List Char}, (∀ c ∈ w, isBlank c = false) →
    stripComment false (w ++ rest) = w ++ stripComment false rest
  | [], _ => rfl
  | c :: w, h => by
    rw [List.cons_append, stripComment, if_neg (by simp), h c (by simp),
      stripComment_append_word fun d hd => h d (List.mem_cons_of_mem _ hd), List.cons_append]

theorem stripComment_append_token (h : IsToken w) :
    stripComment true (w ++ rest) = w ++ stripComment false rest := by
  rcases w with _ | ⟨c, w⟩
  · exact absurd rfl h.1.1
  · have hc : c ≠ ';' := by simpa using h.2
    rw [List.cons_append, stripComment, if_neg fun hsemi => hc hsemi.1, h.1.2 c (by simp),
      stripComment_append_word fun d hd => h.1.2 d (List.mem_cons_of_mem _ hd), List.cons_append]

/-- Only the first word may start with a semicolon, and that only where no blank was before. -/
theorem head?_ne_semicolon : ∀ (cs : List Char) (afterBlank : Bool),
    (∀ w ∈ (words (stripComment afterBlank cs)).tail, w.head? ≠ some ';')
      ∧ (afterBlank = true → ∀ w ∈ words (stripComment afterBlank cs), w.head? ≠ some ';')
  | [], _ => by simp [stripComment, words]
  | c :: cs, afterBlank => by
    have ih := head?_ne_semicolon cs
    by_cases hcomment : c = ';' ∧ afterBlank = true
    · rw [stripComment, if_pos hcomment]
      simp [words]
    · by_cases hc : isBlank c = true
      · rw [stripComment_cons_blank hc, words_cons_blank hc]
        exact ⟨fun w hw => (ih true).2 rfl w (List.mem_of_mem_tail hw), fun _ => (ih true).2 rfl⟩
      · simp only [Bool.not_eq_true] at hc
        have hfirst : afterBlank = true → c ≠ ';' := fun hafter hsemi => hcomment ⟨hsemi, hafter⟩
        rw [stripComment, if_neg hcomment, hc]
        rcases hrest : stripComment false cs with _ | ⟨d, ds⟩
        · rw [words_singleton hc]
          simpa using hfirst
        · by_cases hd : isBlank d = true
          · -- the rest begins with a blank, so a comment is cut off there in any case
            have hsame : stripComment false cs = stripComment true cs := by
              rcases cs with _ | ⟨e, cs⟩
              · rfl
              · rw [stripComment, if_neg (by simp)] at hrest
                obtain rfl : e = d := (List.cons.inj hrest).1
                rw [stripComment_cons_blank hd, stripComment_cons_blank hd]
            have hall := (ih true).2 rfl
            rw [← hsame, hrest] at hall
            rw [words_before_blank hc hd]
            refine ⟨hall, fun hafter w hw => ?_⟩
            rcases List.mem_cons.mp hw with rfl | hw
            · simpa using hfirst hafter
            · exact hall w hw
          · simp only [Bool.not_eq_true] at hd
            obtain ⟨v, vs, hwords⟩ := words_cons ds hd
            have htail := (ih false).1
            rw [hrest, hwords] at htail
            rw [words_before_word hc hd hwords]
            refine ⟨htail, fun hafter w hw => ?_⟩
            rcases List.mem_cons.mp hw with rfl | hw
            · simpa using hfirst hafter
            · exact htail w hw

/-- The line feed at the end of a line is no part of its words. -/
theorem words_stripComment_lineFeed (cs : List Char) (afterBlank : Bool) :
    words (stripComment afterBlank (cs ++ ['\n'])) = words (stripComment afterBlank cs) := by
  have hcut : ∀ (cs : List Char) (afterBlank : Bool), ∃ rest, (∀ c ∈ rest, isBlank c = true)
      ∧ stripComment afterBlank (cs ++ ['\n']) = stripComment afterBlank cs ++ rest := by
    intro cs
    induction cs with
    | nil => exact fun afterBlank => ⟨['\n'], by simp [isBlank_lineFeed], by simp [stripComment]⟩
    | cons c cs ih =>
      intro afterBlank
      obtain ⟨rest, hrest, hstrip⟩ := ih (isBlank c)
      rw [List.cons_append, stripComment, stripComment]
      split_ifs with hcomment
      · exact ⟨[], by simp, rfl⟩
      · exact ⟨rest, hrest, by rw [hstrip, List.cons_append]⟩
  obtain ⟨rest, hrest, hstrip⟩ := hcut cs afterBlank
  rw [hstrip, words_append_blanks hrest]

theorem isToken_of_mem_words (hw : w ∈ words (stripComment true cs)) : IsToken w :=
  ⟨isWord_of_mem_words w hw, (head?_ne_semicolon cs true).2 rfl w hw⟩

end Comments

section Spells

/-- Words with a space between each two. -/
def spaced (ws : List (List Char)) : List Char := [' '].intercalate ws

theorem lineFeed_not_mem (h : IsWord w) : '\n' ∉ w := fun hmem => by
  simpa [isBlank_lineFeed] using h.2 _ hmem

/-- The text holds the words and nothing else, whatever follows it on its line. -/
structure Spells (cs : List Char) (ws : List (List Char)) : Prop where
  strip : ∀ rest, stripComment true (cs ++ rest) = cs ++ stripComment false rest
  words_eq : words cs = ws
  oneLine : '\n' ∉ cs
  nonempty : cs ≠ []

theorem stripComment_append_blanks : ∀ {gap : List Char}, (∀ c ∈ gap, isBlank c = true) →
    stripComment true (gap ++ rest) = gap ++ stripComment true rest
  | [], _ => rfl
  | c :: gap, h => by
    rw [List.cons_append, stripComment_cons_blank (h c (by simp)),
      stripComment_append_blanks fun d hd => h d (List.mem_cons_of_mem _ hd), List.cons_append]

theorem words_blanks_append : ∀ {gap : List Char}, (∀ c ∈ gap, isBlank c = true) →
    words (gap ++ rest) = words rest
  | [], _ => rfl
  | c :: gap, h => by
    rw [List.cons_append, words_cons_blank (h c (by simp))]
    exact words_blanks_append fun d hd => h d (List.mem_cons_of_mem _ hd)

namespace Spells

theorem words_strip (h : Spells cs ws) : words (stripComment true cs) = ws := by
  have hstrip := h.strip []
  rw [List.append_nil, stripComment, List.append_nil] at hstrip
  rw [hstrip, h.words_eq]

theorem token (h : IsToken w) : Spells w [w] where
  strip _ := stripComment_append_token h
  words_eq := by
    have hblank : ∀ c ∈ ['\n'], isBlank c = true := by simp [isBlank_lineFeed]
    rw [← words_append_blanks hblank w, words_append_blank isBlank_lineFeed h.1]
    rfl
  oneLine := lineFeed_not_mem h.1
  nonempty := h.1.1

theorem cons {gap : List Char} (hw : IsToken w) (hgap : ∀ c ∈ gap, isBlank c = true)
    (hne : gap ≠ []) (hline : '\n' ∉ gap) (h : Spells cs ws) :
    Spells (w ++ gap ++ cs) (w :: ws) := by
  rcases gap with _ | ⟨b, gap⟩
  · exact absurd rfl hne
  · have hb : isBlank b = true := hgap b (by simp)
    have hrest : ∀ c ∈ gap, isBlank c = true := fun c hc => hgap c (List.mem_cons_of_mem _ hc)
    refine ⟨fun rest => ?_, ?_, ?_, ?_⟩
    · rw [List.append_assoc, List.append_assoc, stripComment_append_token hw, List.cons_append,
        stripComment_cons_blank hb, stripComment_append_blanks hrest, h.strip]
      simp
    · rw [List.append_assoc, List.cons_append, words_append_blank hb hw.1,
        words_blanks_append hrest, h.words_eq]
    · simp only [List.mem_append, not_or]
      exact ⟨⟨lineFeed_not_mem hw.1, hline⟩, h.oneLine⟩
    · simp

theorem spaced : ∀ {ws : List (List Char)}, ws ≠ [] → (∀ w ∈ ws, IsToken w) →
    Spells (spaced ws) ws
  | [], hne, _ => absurd rfl hne
  | [w], _, h => by
    rw [Listing.spaced, List.intercalate_singleton]
    exact token (h w (by simp))
  | w :: v :: ws, _, h => by
    rw [Listing.spaced, List.intercalate_cons_cons]
    have ih := Spells.spaced (List.cons_ne_nil v ws) fun u hu => h u (List.mem_cons_of_mem w hu)
    exact ih.cons (h w (by simp)) (by simp [isBlank_space]) (by simp) (by simp)

end Spells

end Spells

end Listing

end SlotColoring
