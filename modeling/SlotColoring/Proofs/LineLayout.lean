import SlotColoring.Proofs.LineParts
import SlotColoring.Proofs.PrintedListing

/-!
# The layout of a listing

A line is laid out as tokens with blanks around them, and at its end there may be a comment
(`LaidOut`).  The line determines its tokens: they are the words that are read from it
(`laidOut_iff`).  What reading comes to, places aside, depends on the words of the lines alone
(`result_parse`), and a line without words makes no difference (`Draft.tellAll_filter`).  So a text
reads as its lines do when they are reduced to their tokens.
-/

namespace SlotColoring

open Text

namespace Listing

variable {line : List Char} {ws : List (List Char)} {wss : List (List (List Char))}

section Tokens

/-- The line has the tokens.  Blanks stand between them and may stand around them, and a comment
ends the line, which begins it or comes after a blank. -/
inductive LaidOut : List Char → List (List Char) → Prop where
  | bare {gap comment : List Char} (blank : ∀ c ∈ gap, isBlank c = true)
      (semicolon : comment = [] ∨ comment.head? = some ';') : LaidOut (gap ++ comment) []
  | token {gap w rest : List Char} {ws : List (List Char)} (blank : ∀ c ∈ gap, isBlank c = true)
      (token : IsToken w) (apart : ∀ c, rest.head? = some c → isBlank c = true)
      (later : LaidOut rest ws) : LaidOut (gap ++ (w ++ rest)) (w :: ws)

/-- Where a blank comes next, it is the same whether one came before. -/
theorem stripComment_apart {rest : List Char}
    (h : ∀ c, rest.head? = some c → isBlank c = true) :
    stripComment false rest = stripComment true rest
      ∧ ∀ c, (stripComment true rest).head? = some c → isBlank c = true := by
  rcases rest with _ | ⟨b, rest⟩
  · exact ⟨rfl, by simp [stripComment]⟩
  · have hb := h b rfl
    rw [stripComment_cons_blank hb, stripComment_cons_blank hb]
    refine ⟨rfl, fun c hc => ?_⟩
    rw [← Option.some.inj hc]
    exact hb

theorem LaidOut.words_eq (h : LaidOut line ws) : words (stripComment true line) = ws := by
  induction h with
  | @bare gap comment hblank hsemicolon =>
    have hnone : stripComment true comment = [] := by
      rcases hsemicolon with rfl | hsemicolon
      · rfl
      · obtain ⟨rest, rfl⟩ := List.head?_eq_some_iff.mp hsemicolon
        rw [stripComment, if_pos ⟨rfl, rfl⟩]
    rw [stripComment_append_blanks hblank, hnone, List.append_nil, words_of_blanks hblank]
  | @token gap w rest ws hblank hw hapart _ ih =>
    obtain ⟨hstrip, hhead⟩ := stripComment_apart hapart
    rw [stripComment_append_blanks hblank, words_blanks_append hblank,
      stripComment_append_token hw, hstrip, words_append_rest hw.1 hhead, ih]

theorem exists_laidOut (line : List Char) : ∃ ws, LaidOut line ws := by
  induction hn : line.length using Nat.strong_induction_on generalizing line with
  | _ n ih =>
    have hsplit : line.takeWhile isBlank ++ trimStart line = line :=
      List.takeWhile_append_dropWhile
    have hgap : ∀ c ∈ line.takeWhile isBlank, isBlank c = true := fun c hc =>
      List.mem_takeWhile_imp hc
    by_cases hend : trimStart line = [] ∨ (trimStart line).head? = some ';'
    · rw [← hsplit]
      exact ⟨[], .bare hgap hend⟩
    · rw [not_or] at hend
      obtain ⟨w, rest, hw, hword, hrest⟩ := exists_first_word (fun c => head?_trimStart) hend.1
      rw [hw] at hsplit hend
      have htoken : IsToken w := by
        refine ⟨hword, fun hsemicolon => hend.2 ?_⟩
        rw [List.head?_append_of_ne_nil _ hword.1, hsemicolon]
      -- the rest is shorter, since the word is not empty
      have hpos := List.length_pos_of_ne_nil hword.1
      have hlength := congrArg List.length hsplit
      simp only [List.length_append] at hlength
      obtain ⟨ws, hws⟩ := ih rest.length (by omega) rest rfl
      rw [← hsplit]
      exact ⟨w :: ws, .token hgap htoken hrest hws⟩

theorem laidOut_iff : LaidOut line ws ↔ words (stripComment true line) = ws := by
  refine ⟨LaidOut.words_eq, fun h => ?_⟩
  obtain ⟨ws', hws'⟩ := exists_laidOut line
  rwa [← h, hws'.words_eq]

theorem forall₂_laidOut_iff (ls : List (List Char)) : List.Forall₂ LaidOut ls wss
    ↔ wss = ls.map fun line => words (stripComment true line) := by
  induction ls generalizing wss with
  | nil => rw [List.forall₂_nil_left_iff, List.map_nil]
  | cons line ls ih =>
    rw [List.forall₂_cons_left_iff, List.map_cons]
    simp only [laidOut_iff, ih]
    constructor
    · rintro ⟨ws, wss', rfl, rfl, rfl⟩
      rfl
    · rintro rfl
      exact ⟨_, _, rfl, rfl, rfl⟩

end Tokens

section Tidied

theorem Draft.tellAll_filter : ∀ (wss : List (List (List Char))) (d : Draft),
    d.tellAll (wss.filter fun ws => ws ≠ []) = d.tellAll wss
  | [], _ => rfl
  | [] :: wss, d => d.tellAll_filter wss
  | (w :: ws) :: wss, d => by
    rw [List.filter_cons_of_pos (by simp)]
    unfold tellAll
    rcases d.tell (w :: ws) with fault | d'
    · rfl
    · exact d'.tellAll_filter wss

/-- The lines that have tokens, with one space between the tokens.  The last line may end in a line
feed or not. -/
def tidied (closed : Bool) (wss : List (List (List Char))) : String :=
  match wss.filter fun ws => ws ≠ [] with
  | [] => ""
  | ls => String.ofList (['\n'].intercalate (ls.map spaced) ++ if closed then ['\n'] else [])

theorem wordLines_tidied (closed : Bool) (h : ∀ ws ∈ wss, ∀ w ∈ ws, IsToken w) :
    wordLines (tidied closed wss) = wss.filter fun ws => ws ≠ [] := by
  have hlines : List.Forall₂ IsLine ((wss.filter fun ws => ws ≠ []).map spaced)
      (wss.filter fun ws => ws ≠ []) := by
    rw [List.forall₂_map_left_iff, List.forall₂_same]
    intro ws hws
    obtain ⟨hmem, hne⟩ := List.mem_filter.mp hws
    have hspells := Spells.spaced (of_decide_eq_true hne) (h ws hmem)
    exact ⟨hspells.words_strip, hspells.oneLine, hspells.nonempty⟩
  unfold tidied
  split
  · rename_i hnone
    rw [hnone]
    rfl
  · rename_i hsome
    rw [wordLines, String.toList_ofList]
    exact words_lines_join closed (by simpa using hsome) hlines

end Tidied

end Listing

open Listing

/-- The tokens of a text's lines are determined, and the text is read, places aside, as the lines
that have tokens are with one space between the tokens. -/
theorem layout_irrelevant (src : String) :
    ∃ wss, (∀ wss', List.Forall₂ LaidOut (lines src.toList) wss' ↔ wss' = wss)
      ∧ ∀ closed, result (parse (tidied closed wss)) = result (parse src) := by
  refine ⟨wordLines src, fun wss' => forall₂_laidOut_iff _, fun closed => ?_⟩
  rw [result_parse, result_parse, wordLines_tidied closed isToken_of_mem_wordLines,
    Draft.tellAll_filter]

end SlotColoring
