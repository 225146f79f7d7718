import SlotColoring.Proofs.LineParts

/-!
# Reading within bounds

Reading computes places from lengths of texts that are cut out of each other.  No such cut falls
inside a character or outside its text, every line with something to read has a first word, no
difference is below zero and no sum is above the length of the source: reading that checks all of
this comes to the same (`parseChecked_eq`).
-/

namespace SlotColoring

open Text

namespace Text

/-- The difference of two numbers, if it is not below zero. -/
def minus? (a b : Nat) : Option Nat := if b ≤ a then some (a - b) else none

/-- The sum of two numbers, if it is within a limit. -/
def plus? (limit a b : Nat) : Option Nat := if a + b ≤ limit then some (a + b) else none

/-- The text before a byte and the text from it on, if a character begins or the text ends there. -/
def cutAt? : List Char → Nat → Option (List Char × List Char)
  | cs, 0 => some ([], cs)
  | [], _ + 1 => none
  | c :: cs, n + 1 => match minus? (n + 1) c.utf8Size with
    | none => none
    | some m => (cutAt? cs m).map fun p => (c :: p.1, p.2)

theorem cutAt?_append (ds : List Char) : ∀ cs : List Char,
    cutAt? (cs ++ ds) (byteCount cs) = some (cs, ds)
  | [] => by simp [cutAt?]
  | c :: cs => by
    have hpos := c.utf8Size_pos
    obtain ⟨n, hn⟩ : ∃ n, byteCount (c :: cs) = n + 1 := ⟨byteCount (c :: cs) - 1, by
      rw [byteCount_cons]; omega⟩
    have hminus : minus? (n + 1) c.utf8Size = some (byteCount cs) := by
      rw [← hn, byteCount_cons, minus?, if_pos (by omega)]
      simp
    rw [hn, List.cons_append, cutAt?, hminus]
    simp only [cutAt?_append ds cs, Option.map_some]

end Text

namespace Listing

variable {text line : List Char} {d : Draft} {start lo : Nat}

/-- The byte at which the comment of a line begins. -/
def commentStart? (afterBlank : Bool) : List Char → Option Nat
  | [] => none
  | c :: cs =>
    if c = ';' ∧ afterBlank then some 0
    else (commentStart? (isBlank c) cs).map fun n => c.utf8Size + n

/-- The line up to its comment, cut off at a byte. -/
def cutComment? (line : List Char) : Option (List Char) :=
  match commentStart? true line with
  | some n => (cutAt? line n).map Prod.fst
  | none => some line

namespace Draft

/-- Reads the text of a line that starts at `lo`, or gives up where a number is out of bounds. -/
def readTextChecked (limit : Nat) (d : Draft) (text : List Char) (lo : Nat) :
    Option (Except ListingError Draft) := do
  let hi ← plus? limit lo (byteCount text)
  match words text with
  | [] => none
  | first :: rest =>
    if first.head? = some '.' then
      some (d.readDirectiveAt (String.ofList first) (rest.map String.ofList) ⟨lo, hi⟩)
    else match labelOf? first with
      | some label =>
        let labelEnd ← plus? limit lo (byteCount first)
        let (_, after) ← cutAt? text (byteCount first)
        let instructionStart ← minus? hi (byteCount (trimStart after))
        some ((d.addEvent (.label label) ⟨lo, labelEnd⟩).readInstructionAt rest
          ⟨instructionStart, hi⟩)
      | none => some (d.readInstructionAt (first :: rest) ⟨lo, hi⟩)

/-- Reads a line that starts at `start`, or gives up where a number is out of bounds. -/
def readLineChecked (limit : Nat) (d : Draft) (line : List Char) (start : Nat) :
    Option (Except ListingError Draft) := do
  let code ← cutComment? line
  let text := trimEnd (trimStart code)
  if text = [] then some (.ok d)
  else
    let indent ← minus? (byteCount code) (byteCount (trimStart code))
    let lo ← plus? limit start indent
    d.readTextChecked limit text lo

/-- Reads lines up to the first error, or gives up where a number is out of bounds. -/
def readLinesChecked (limit : Nat) (d : Draft) (start : Nat) :
    List (List Char) → Option (Except ListingError Draft)
  | [] => some (.ok d)
  | line :: lines => do
    let next ← plus? limit start (byteCount line)
    match ← d.readLineChecked limit line start with
    | .error e => some (.error e)
    | .ok d' => d'.readLinesChecked limit next lines

end Draft

/-- Reads a listing and checks on the way that every cut falls between characters of its text, that
every line with something to read has a first word, that no difference is below zero and that no sum
is above the length of the source. -/
def parseChecked (src : String) : Option (Except ListingError Listing) := do
  match ← Draft.blank.readLinesChecked src.utf8ByteSize 0 (lines src.toList) with
  | .ok d => some (.ok d.finish)
  | .error e => some (.error e)

theorem commentStart?_cases : ∀ (cs : List Char) (a : Bool),
    (commentStart? a cs = none ∧ stripComment a cs = cs)
      ∨ (commentStart? a cs = some (byteCount (stripComment a cs))
          ∧ ∃ comment, cs = stripComment a cs ++ comment)
  | [], _ => Or.inl ⟨rfl, rfl⟩
  | c :: cs, a => by
    unfold commentStart? stripComment
    split_ifs with hcomment
    · exact Or.inr ⟨rfl, c :: cs, rfl⟩
    · rcases commentStart?_cases cs (isBlank c) with ⟨hnone, hself⟩ | ⟨hsome, comment, hsplit⟩
      · exact Or.inl ⟨by rw [hnone]; rfl, by rw [hself]⟩
      · exact Or.inr ⟨by rw [hsome]; rfl, comment, by rw [List.cons_append, ← hsplit]⟩

theorem cutComment?_eq (line : List Char) : cutComment? line = some (stripComment true line) := by
  unfold cutComment?
  rcases commentStart?_cases line true with ⟨hnone, hself⟩ | ⟨hsome, comment, hsplit⟩
  · simp [hnone, hself]
  · have hcut := cutAt?_append comment (stripComment true line)
    rw [← hsplit] at hcut
    simp [hsome, hcut]

namespace Draft

theorem readTextChecked_eq {limit : Nat} (h : Neat text) (hlimit : lo + byteCount text ≤ limit) :
    d.readTextChecked limit text lo = some (d.readText text lo) := by
  obtain ⟨w, rest, rfl, hw, hrest⟩ := exists_first_word h.starts h.nonempty
  have hsizes := byteCount_trimStart rest
  rw [byteCount_append] at hlimit
  have hhi : plus? limit lo (byteCount (w ++ rest)) = some (lo + byteCount (w ++ rest)) := by
    rw [plus?, if_pos (by rw [byteCount_append]; omega)]
  have hlabel : plus? limit lo (byteCount w) = some (lo + byteCount w) := by
    rw [plus?, if_pos (by omega)]
  have hminus : minus? (lo + byteCount (w ++ rest)) (byteCount (trimStart rest))
      = some (lo + byteCount (w ++ rest) - byteCount (trimStart rest)) := by
    rw [minus?, if_pos (by rw [byteCount_append]; omega)]
  unfold readTextChecked readText
  simp only [hhi, words_append_rest hw hrest, Option.bind_eq_bind, Option.bind_some]
  split_ifs
  · rfl
  · rcases labelOf? w with _ | l
    · rfl
    · simp only [hlabel, cutAt?_append, hminus, Option.bind_some, List.drop_left]

theorem readLineChecked_eq {limit : Nat} (hfeed : '\n' ∉ line.dropLast)
    (hlimit : start + byteCount line ≤ limit) :
    d.readLineChecked limit line start = some (d.readLine line start) := by
  have hsizes : byteCount (indentOf line) + byteCount (trimStart (stripComment true line))
      = byteCount (stripComment true line) := byteCount_trimStart _
  have hcontent : trimEnd (trimStart (stripComment true line)) = content line := rfl
  unfold readLineChecked
  rw [cutComment?_eq, readLine_eq]
  simp only [Option.bind_eq_bind, Option.bind_some, hcontent]
  split_ifs with hempty
  · rw [hempty, readText_nil]
  · obtain ⟨tail, -, hline⟩ := exists_tail hempty
    have hbytes := congrArg byteCount hline
    simp only [byteCount_append] at hbytes
    have hminus : minus? (byteCount (stripComment true line))
        (byteCount (trimStart (stripComment true line))) = some (byteCount (indentOf line)) := by
      rw [minus?, if_pos (by omega), ← hsizes, Nat.add_sub_cancel]
    have hplus : plus? limit start (byteCount (indentOf line))
        = some (start + byteCount (indentOf line)) := by
      rw [plus?, if_pos (by omega)]
    rw [hminus, Option.bind_some, hplus, Option.bind_some]
    exact readTextChecked_eq (neat_content hfeed hempty) (by omega)

theorem readLinesChecked_eq {limit : Nat} : ∀ (ls : List (List Char)) (d : Draft) (start : Nat),
    (∀ line ∈ ls, '\n' ∉ line.dropLast) → start + byteCount ls.flatten ≤ limit →
    d.readLinesChecked limit start ls = some (d.readLines start ls)
  | [], _, _, _, _ => rfl
  | line :: ls, d, start, hfeed, hlimit => by
    rw [List.flatten_cons, byteCount_append] at hlimit
    have hplus : plus? limit start (byteCount line) = some (start + byteCount line) := by
      rw [plus?, if_pos (by omega)]
    unfold readLinesChecked readLines
    rw [hplus, readLineChecked_eq (hfeed line (by simp)) (by omega)]
    simp only [Option.bind_eq_bind, Option.bind_some]
    rcases d.readLine line start with e | d'
    · rfl
    · exact readLinesChecked_eq ls d' _ (fun l hl => hfeed l (List.mem_cons_of_mem _ hl)) (by omega)

end Draft

theorem parseChecked_eq (src : String) : parseChecked src = some (parse src) := by
  have hlimit : 0 + byteCount (lines src.toList).flatten ≤ src.utf8ByteSize := by
    rw [flatten_lines, byteCount_toList]
    omega
  have hlines := Draft.readLinesChecked_eq (lines src.toList) .blank 0
    (fun line hline => (lineFeed_not_mem_dropLast hline).2) hlimit
  unfold parseChecked parse
  rw [hlines]
  simp only [Option.bind_eq_bind, Option.bind_some]
  rcases Draft.blank.readLines 0 (lines src.toList) with e | d <;> rfl

end Listing

end SlotColoring
