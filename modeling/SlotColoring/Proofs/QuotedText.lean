import Mathlib.Algebra.Group.Nat.Even
import Mathlib.Data.List.DropRight
import SlotColoring.Text.Quoted

/-!
# Reading a text between quotation marks

Between quotation marks a backslash escapes the character after it, and the first quotation mark
that is not escaped closes the text (`scan`).  A text with a backslash before its quotation marks
and its backslashes is read to its end and gives itself back (`scans_escaped`).  With a backslash
before its quotation marks only, it is read to its end if no backslash of its own takes the escape
away from a quotation mark (`ReadAs`, `exists_readAs_iff`), and it never gives back a backslash of
its own (`exists_readAs_eq_iff`).
-/

namespace SlotColoring.Text

/-- A character between quotation marks, by itself or after a backslash. -/
inductive Mark where
  | plain (c : Char)
  | escape (c : Char)
deriving DecidableEq

/-- The character without the backslash. -/
def Mark.char : Mark → Char
  | plain c => c
  | escape c => c

/-- Reads up to the first quotation mark that is not escaped: what stands before it and what comes
after it. -/
def scan : List Char → Option (List Mark × List Char)
  | [] => none
  | '\\' :: c :: cs => (scan cs).map fun p => (.escape c :: p.1, p.2)
  | '"' :: cs => some ([], cs)
  | c :: cs => (scan cs).map fun p => (.plain c :: p.1, p.2)

/-- Reads what stands between quotation marks on a line, from the first quotation mark on, and gives
what comes after it. -/
def quoted? (line : String) : Option (List Mark × String) :=
  (scan (line.toList.dropWhile fun c => c ≠ '"').tail).map fun p => (p.1, String.ofList p.2)

variable {c : Char} {cs ds rest : List Char} {ms ns : List Mark}

section Scanning

theorem scan_quote (cs : List Char) : scan ('"' :: cs) = some ([], cs) := by
  simp [scan]

theorem scan_escape (c : Char) (cs : List Char) :
    scan ('\\' :: c :: cs) = (scan cs).map fun p => (.escape c :: p.1, p.2) := by
  simp [scan]

theorem scan_plain (hquote : c ≠ '"') (hslash : c ≠ '\\') (cs : List Char) :
    scan (c :: cs) = (scan cs).map fun p => (.plain c :: p.1, p.2) := by
  rw [scan]
  · exact fun d ds h => absurd h hslash
  · exact hquote

/-- A mark that is read first leaves what the marks after it leave. -/
theorem map_cons_eq_some {m : Mark} :
    (scan cs).map (fun p => (m :: p.1, p.2)) = some (ms, rest) ↔
      ∃ ns, ms = m :: ns ∧ scan cs = some (ns, rest) := by
  rcases scan cs with _ | ⟨ns, left⟩
  · simp
  · simp [eq_comm]

/-- The quotation mark that closes the text is used up. -/
theorem length_of_scan (h : scan cs = some (ms, rest)) : rest.length < cs.length := by
  fun_induction scan cs generalizing ms with
  | case1 => simp at h
  | case2 c cs ih =>
    obtain ⟨ns, -, hns⟩ := map_cons_eq_some.mp h
    have := ih hns
    simp only [List.length_cons]
    omega
  | case3 cs =>
    obtain ⟨-, rfl⟩ := Prod.mk.inj (Option.some.inj h)
    simp
  | case4 c cs _ _ ih =>
    obtain ⟨ns, -, hns⟩ := map_cons_eq_some.mp h
    have := ih hns
    simp only [List.length_cons]
    omega

/-- Whatever follows, the characters are read as the marks. -/
def Scans (cs : List Char) (ms : List Mark) : Prop :=
  ∀ rest, scan (cs ++ rest) = (scan rest).map fun p => (ms ++ p.1, p.2)

namespace Scans

theorem nil : Scans [] [] := fun rest => by simp

theorem append (h : Scans cs ms) (h' : Scans ds ns) : Scans (cs ++ ds) (ms ++ ns) := by
  intro rest
  rw [List.append_assoc, h, h', Option.map_map]
  simp [Function.comp_def]

theorem escape (c : Char) : Scans ['\\', c] [.escape c] := fun rest => scan_escape c rest

theorem plain (hquote : c ≠ '"') (hslash : c ≠ '\\') : Scans [c] [.plain c] := fun rest =>
  scan_plain hquote hslash rest

theorem flatMap {α : Type} {f : α → List Char} {m : α → List Mark} (h : ∀ a, Scans (f a) (m a)) :
    ∀ l : List α, Scans (l.flatMap f) (l.flatMap m)
  | [] => nil
  | a :: l => by
    rw [List.flatMap_cons, List.flatMap_cons]
    exact (h a).append (flatMap h l)

theorem scan_close (h : Scans cs ms) (rest : List Char) :
    scan (cs ++ '"' :: rest) = some (ms, rest) := by
  rw [h, scan_quote]
  simp

end Scans

/-- What is read on a line whose first quotation mark comes just before the text. -/
theorem quoted?_label {opening text : String} {before : List Char}
    (hopening : opening.toList = before ++ ['"']) (hbefore : '"' ∉ before) :
    quoted? (opening ++ text ++ "\"];") = (scan (text.toList ++ '"' :: "];".toList)).map
      fun p => (p.1, String.ofList p.2) := by
  have hdrop : (opening ++ text ++ "\"];").toList.dropWhile (fun c => c ≠ '"')
      = '"' :: (text.toList ++ '"' :: "];".toList) := by
    rw [String.toList_append, String.toList_append, hopening, List.append_assoc, List.append_assoc,
      List.dropWhile_append_of_pos fun c hc => ?_]
    · rfl
    · simpa using fun heq : c = '"' => hbefore (heq ▸ hc)
  rw [quoted?, hdrop, List.tail_cons]

theorem isDigit_of_mem_toString {n : Nat} (h : c ∈ (toString n).toList) : c.isDigit = true :=
  Nat.isDigit_of_mem_toDigits (b := 10) (by omega) (by omega) (by simpa using h)

theorem quote_not_mem_toString (n : Nat) : '"' ∉ (toString n).toList := fun h =>
  absurd (isDigit_of_mem_toString h) (by decide)

end Scanning

section Escaped

/-- How a character is read that is written with its escape. -/
def markOf (c : Char) : Mark := if c = '\\' ∨ c = '"' then .escape c else .plain c

theorem scans_escapedChar (c : Char) : Scans (escapedChar c) [markOf c] := by
  unfold escapedChar markOf
  by_cases hslash : c = '\\'
  · subst hslash
    exact .escape '\\'
  · by_cases hquote : c = '"'
    · subst hquote
      exact .escape '"'
    · rw [if_neg hslash, if_neg hquote, if_neg (by simp [hslash, hquote])]
      exact .plain hquote hslash

theorem scans_escaped (s : String) : Scans (escaped s).toList (s.toList.map markOf) := by
  rw [escaped, String.toList_ofList, List.map_eq_flatMap]
  exact .flatMap scans_escapedChar s.toList

end Escaped

section QuotesEscaped

/-- The text is read to its end as the marks if it is written with a backslash before its quotation
marks only. -/
inductive ReadAs : List Char → List Mark → Prop where
  | nil : ReadAs [] []
  | quote {cs : List Char} {ms : List Mark} (later : ReadAs cs ms) :
      ReadAs ('"' :: cs) (.escape '"' :: ms)
  | swallow {c : Char} {cs : List Char} {ms : List Mark} (quote : c ≠ '"') (later : ReadAs cs ms) :
      ReadAs ('\\' :: c :: cs) (.escape c :: ms)
  | plain {c : Char} {cs : List Char} {ms : List Mark} (quote : c ≠ '"') (slash : c ≠ '\\')
      (later : ReadAs cs ms) : ReadAs (c :: cs) (.plain c :: ms)

/-- The characters of a text with a backslash before its quotation marks. -/
def quotesEscapedChars (cs : List Char) : List Char :=
  cs.flatMap fun c => if c = '"' then ['\\', '"'] else [c]

theorem quotesEscapedChars_quote (cs : List Char) :
    quotesEscapedChars ('"' :: cs) = '\\' :: '"' :: quotesEscapedChars cs := rfl

theorem quotesEscapedChars_of_ne (h : c ≠ '"') (cs : List Char) :
    quotesEscapedChars (c :: cs) = c :: quotesEscapedChars cs := by
  rw [quotesEscapedChars, List.flatMap_cons, if_neg h, List.singleton_append, quotesEscapedChars]

theorem toList_quotesEscaped (s : String) :
    (quotesEscaped s).toList = quotesEscapedChars s.toList := by
  rw [quotesEscaped, String.toList_ofList, quotesEscapedChars]

theorem slash_ne_quote : '\\' ≠ '"' := by decide

theorem ReadAs.scan_eq (h : ReadAs cs ms) (rest : List Char) :
    scan (quotesEscapedChars cs ++ '"' :: rest) = some (ms, rest) := by
  induction h with
  | nil => exact scan_quote rest
  | quote _ ih =>
    rw [quotesEscapedChars_quote, List.cons_append, List.cons_append, scan_escape, ih]
    rfl
  | swallow hquote _ ih =>
    rw [quotesEscapedChars_of_ne slash_ne_quote, quotesEscapedChars_of_ne hquote, List.cons_append,
      List.cons_append, scan_escape, ih]
    rfl
  | plain hquote hslash _ ih =>
    rw [quotesEscapedChars_of_ne hquote, List.cons_append, scan_plain hquote hslash, ih]
    rfl

theorem readAs_of_scan (h : scan (quotesEscapedChars cs ++ '"' :: rest) = some (ms, rest)) :
    ReadAs cs ms := by
  induction hn : cs.length using Nat.strong_induction_on generalizing cs ms with
  | _ n ih =>
    rcases cs with _ | ⟨c, cs⟩
    · obtain ⟨rfl, -⟩ := Prod.mk.inj (Option.some.inj ((scan_quote rest).symm.trans h))
      exact .nil
    rw [List.length_cons] at hn
    by_cases hquote : c = '"'
    · rw [hquote, quotesEscapedChars_quote, List.cons_append, List.cons_append, scan_escape] at h
      obtain ⟨ns, rfl, hns⟩ := map_cons_eq_some.mp h
      rw [hquote]
      exact .quote (ih cs.length (by omega) hns rfl)
    rw [quotesEscapedChars_of_ne hquote, List.cons_append] at h
    by_cases hslash : c = '\\'
    · subst hslash
      rcases cs with _ | ⟨d, cs⟩
      · -- the quotation mark that is to close the text is escaped
        obtain ⟨ns, -, hns⟩ := map_cons_eq_some.mp ((scan_escape '"' rest).symm.trans h)
        exact absurd (length_of_scan hns) (lt_irrefl _)
      rw [List.length_cons] at hn
      by_cases hd : d = '"'
      · -- the backslash that is to escape the quotation mark is escaped, so more is left
        rw [hd, quotesEscapedChars_quote, List.cons_append, List.cons_append, scan_escape,
          scan_quote] at h
        have hlength := congrArg List.length (Prod.mk.inj (Option.some.inj h)).2
        simp only [List.length_append, List.length_cons] at hlength
        omega
      · rw [quotesEscapedChars_of_ne hd, List.cons_append, scan_escape] at h
        obtain ⟨ns, rfl, hns⟩ := map_cons_eq_some.mp h
        exact .swallow hd (ih cs.length (by omega) hns rfl)
    · rw [scan_plain hquote hslash] at h
      obtain ⟨ns, rfl, hns⟩ := map_cons_eq_some.mp h
      exact .plain hquote hslash (ih cs.length (by omega) hns rfl)

theorem scan_quotesEscapedChars_iff (rest : List Char) :
    scan (quotesEscapedChars cs ++ '"' :: rest) = some (ms, rest) ↔ ReadAs cs ms :=
  ⟨readAs_of_scan, fun h => h.scan_eq rest⟩

theorem readAs_of_no_slash (h : '\\' ∉ cs) : ∃ ms, ReadAs cs ms ∧ ms.map Mark.char = cs := by
  induction cs with
  | nil => exact ⟨[], .nil, rfl⟩
  | cons c cs ih =>
    simp only [List.mem_cons, not_or] at h
    obtain ⟨ms, hms, hchars⟩ := ih h.2
    by_cases hquote : c = '"'
    · rw [hquote]
      exact ⟨_, .quote hms, by rw [List.map_cons, hchars]; rfl⟩
    · exact ⟨_, .plain hquote (Ne.symm h.1) hms, by rw [List.map_cons, hchars]; rfl⟩

/-- Every backslash of the text costs a mark. -/
theorem ReadAs.length_lt (h : ReadAs cs ms) :
    ms.length ≤ cs.length ∧ ('\\' ∈ cs → ms.length < cs.length) := by
  induction h with
  | nil => simp
  | quote _ ih => simpa using ih
  | swallow _ _ ih =>
    simp only [List.length_cons]
    omega
  | plain _ hslash _ ih => simpa [Ne.symm hslash] using ih

/-- The text comes back from its marks exactly if it has no backslash. -/
theorem exists_readAs_eq_iff :
    (∃ ms, ReadAs cs ms ∧ ms.map Mark.char = cs) ↔ '\\' ∉ cs := by
  refine ⟨?_, readAs_of_no_slash⟩
  rintro ⟨ms, hms, hchars⟩ hslash
  have hlength := congrArg List.length hchars
  have hlt := hms.length_lt.2 hslash
  rw [List.length_map] at hlength
  omega

end QuotesEscaped

section Runs

/-- The number of backslashes at the end of a text. -/
def endingSlashes (cs : List Char) : Nat := (cs.rtakeWhile fun c => c = '\\').length

/-- Before every quotation mark the number of backslashes is even. -/
def QuotesEven (cs : List Char) : Prop :=
  ∀ before after, cs = before ++ '"' :: after → Even (endingSlashes before)

theorem endingSlashes_of_slashes (h : ∀ d ∈ cs, d = '\\') : endingSlashes cs = cs.length := by
  rw [endingSlashes, List.rtakeWhile_eq_self_iff.mpr (by simpa using h)]

theorem endingSlashes_cons (h : ¬ ∀ d ∈ c :: cs, d = '\\') :
    endingSlashes (c :: cs) = endingSlashes cs := by
  simp only [endingSlashes, List.rtakeWhile, List.length_reverse, List.reverse_cons]
  by_cases hall : ∀ d ∈ cs, d = '\\'
  · have hc : c ≠ '\\' := fun hc => h (List.forall_mem_cons.mpr ⟨hc, hall⟩)
    have hself : cs.reverse.takeWhile (fun c => c = '\\') = cs.reverse :=
      List.takeWhile_eq_self_iff.mpr (by simpa using hall)
    rw [List.takeWhile_append_of_pos (by simpa using hall), hself]
    simp [hc]
  · have hpart : (cs.reverse.takeWhile fun c => c = '\\').length ≠ cs.reverse.length := by
      intro hlength
      have hself := (List.takeWhile_prefix _).eq_of_length hlength
      exact hall (by simpa using List.takeWhile_eq_self_iff.mp hself)
    rw [List.takeWhile_append, if_neg hpart]

theorem endingSlashes_cons_of_ne (h : c ≠ '\\') (cs : List Char) :
    endingSlashes (c :: cs) = endingSlashes cs :=
  endingSlashes_cons fun hall => h (hall c List.mem_cons_self)

/-- A backslash and the character after it count together or not at all. -/
theorem even_endingSlashes_swallow (c : Char) (cs : List Char) :
    Even (endingSlashes ('\\' :: c :: cs)) ↔ Even (endingSlashes cs) := by
  by_cases hall : ∀ d ∈ c :: cs, d = '\\'
  · have hboth : ∀ d ∈ '\\' :: c :: cs, d = '\\' := List.forall_mem_cons.mpr ⟨rfl, hall⟩
    rw [endingSlashes_of_slashes hboth, endingSlashes_of_slashes (List.forall_mem_cons.mp hall).2,
      List.length_cons, List.length_cons, Nat.even_add_one, Nat.even_add_one, not_not]
  · have hboth : ¬ ∀ d ∈ '\\' :: c :: cs, d = '\\' := fun h =>
      hall (List.forall_mem_cons.mp h).2
    rw [endingSlashes_cons hboth, endingSlashes_cons hall]

theorem quotesEven_cons (h : c ≠ '\\') : QuotesEven (c :: cs) ↔ QuotesEven cs := by
  constructor
  · intro heven before after hcs
    rw [← endingSlashes_cons_of_ne h]
    exact heven (c :: before) after (by rw [hcs, List.cons_append])
  · intro heven before after hcs
    rcases before with _ | ⟨d, before⟩
    · exact Even.zero
    · obtain ⟨rfl, hrest⟩ := List.cons.inj hcs
      rw [endingSlashes_cons_of_ne h]
      exact heven before after hrest

theorem quotesEven_swallow (h : c ≠ '"') : QuotesEven ('\\' :: c :: cs) ↔ QuotesEven cs := by
  constructor
  · intro heven before after hcs
    rw [← even_endingSlashes_swallow c]
    exact heven ('\\' :: c :: before) after (by rw [hcs, List.cons_append, List.cons_append])
  · intro heven before after hcs
    rcases before with _ | ⟨d, _ | ⟨e, before⟩⟩
    · exact absurd (List.cons.inj hcs).1 slash_ne_quote
    · exact absurd (List.cons.inj (List.cons.inj hcs).2).1 h
    · obtain ⟨rfl, htail⟩ := List.cons.inj hcs
      obtain ⟨rfl, hrest⟩ := List.cons.inj htail
      rw [even_endingSlashes_swallow]
      exact heven before after hrest

theorem not_quotesEven : ¬ QuotesEven ('\\' :: '"' :: cs) := by
  intro heven
  have hone : endingSlashes ['\\'] = 1 := by decide
  simpa [hone] using heven ['\\'] cs rfl

theorem quotesEven_append (h : '"' ∉ ds) : QuotesEven (cs ++ ds) ↔ QuotesEven cs := by
  constructor
  · intro heven before after hcs
    exact heven before (after ++ ds) (by rw [hcs, List.append_assoc, List.cons_append])
  · intro heven before after hsplit
    rcases List.append_eq_append_iff.mp hsplit with ⟨mid, -, hds⟩ | ⟨mid, hcs, hmid⟩
    · exact absurd (by simp [hds]) h
    · rcases mid with _ | ⟨d, mid⟩
      · rw [List.nil_append] at hmid
        exact absurd (hmid ▸ List.mem_cons_self) h
      · obtain ⟨rfl, -⟩ := List.cons.inj hmid
        exact heven before mid hcs

theorem ReadAs.quotesEven (h : ReadAs cs ms) : QuotesEven cs := by
  induction h with
  | nil => exact fun before after hcs => by simp at hcs
  | quote _ ih => exact (quotesEven_cons (Ne.symm slash_ne_quote)).mpr ih
  | swallow hquote _ ih => exact (quotesEven_swallow hquote).mpr ih
  | plain _ hslash _ ih => exact (quotesEven_cons hslash).mpr ih

theorem exists_readAs (h : QuotesEven cs) (hlast : cs.getLast? ≠ some '\\') :
    ∃ ms, ReadAs cs ms := by
  -- on the length, since a backslash is read together with the character after it
  induction hn : cs.length using Nat.strong_induction_on generalizing cs with
  | _ n ih =>
    rcases cs with _ | ⟨c, cs⟩
    · exact ⟨[], .nil⟩
    rw [List.length_cons] at hn
    by_cases hslash : c = '\\'
    · subst hslash
      rcases cs with _ | ⟨d, cs⟩
      · exact absurd rfl hlast
      rw [List.length_cons] at hn
      have hd : d ≠ '"' := by
        rintro rfl
        exact not_quotesEven h
      have hlast' : cs.getLast? ≠ some '\\' := fun hcs => hlast (by simp [List.getLast?_cons, hcs])
      obtain ⟨ms, hms⟩ := ih cs.length (by omega) ((quotesEven_swallow hd).mp h) hlast' rfl
      exact ⟨_, .swallow hd hms⟩
    · have hlast' : cs.getLast? ≠ some '\\' := fun hcs => hlast (by simp [List.getLast?_cons, hcs])
      obtain ⟨ms, hms⟩ := ih cs.length (by omega) ((quotesEven_cons hslash).mp h) hlast' rfl
      by_cases hquote : c = '"'
      · rw [hquote]
        exact ⟨_, .quote hms⟩
      · exact ⟨_, .plain hquote hslash hms⟩

/-- A text that does not end in a backslash is read to its end exactly if the backslashes before
each of its quotation marks are even in number. -/
theorem exists_readAs_iff (hlast : cs.getLast? ≠ some '\\') :
    (∃ ms, ReadAs cs ms) ↔ QuotesEven cs :=
  ⟨fun ⟨_, hms⟩ => hms.quotesEven, fun h => exists_readAs h hlast⟩

end Runs

end SlotColoring.Text
