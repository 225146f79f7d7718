import Mathlib.Data.List.Forall2
import SlotColoring.Interference.Basic
import SlotColoring.Proofs.QuotedText

/-!
# What stands on the vertices of a drawn interference graph

The line of a vertex has its name, slot and register between quotation marks, with a backslash
before every quotation mark of the name but not before its backslashes.  So the line is read to its
end exactly if the backslashes before each quotation mark of the name are even in number, and what
is read is what was written exactly if the name has no backslash (`captioned_vertexLine`).
-/

namespace SlotColoring

open Text

/-- The name of the variable with its slot, and its register once it has one. -/
def Vertex.inscription (v : Vertex) : String :=
  v.name ++ " (" ++ toString v.slot ++ ")" ++ (v.color.map fun c => " r" ++ toString c).getD ""

/-- The first quotation mark that closes the text on the line is the last one. -/
def ClosesAtEnd (line : String) : Prop := ∃ marks, quoted? line = some (marks, "];")

/-- The text is what is read between the quotation marks of the line, up to the last one. -/
def GivesBack (line text : String) : Prop :=
  ∃ marks, quoted? line = some (marks, "];") ∧ String.ofList (marks.map Mark.char) = text

/-- The line draws the vertex, and how it is read depends on the backslashes of the name. -/
structure Captioned (v : Vertex) (line : String) : Prop where
  box : ∃ text, line = "    v" ++ toString v.slot ++ " [label=\"" ++ text ++ "\"];"
  closes_iff : ClosesAtEnd line ↔ QuotesEven v.name.toList
  givesBack_iff : GivesBack line v.inscription ↔ '\\' ∉ v.name.toList

namespace Vertex

variable {v : Vertex} {marks : List Mark}

/-- After the name come digits, blanks, parentheses and a letter. -/
theorem exists_inscription (v : Vertex) : ∃ tail, v.inscription.toList = v.name.toList ++ tail
    ∧ tail ≠ [] ∧ ∀ c ∈ tail, c.isDigit = true ∨ c ∈ [' ', '(', ')', 'r'] := by
  have hdigits : ∀ n : Nat, ∀ c ∈ (toString n).toList,
      c.isDigit = true ∨ c ∈ [' ', '(', ')', 'r'] :=
    fun n c hc => Or.inl (isDigit_of_mem_toString hc)
  refine ⟨" (".toList ++ (toString v.slot).toList ++ ")".toList
    ++ ((v.color.map fun c => " r" ++ toString c).getD "").toList, by simp [inscription],
    by simp, ?_⟩
  simp only [List.forall_mem_append]
  refine ⟨⟨⟨by simp, hdigits v.slot.index⟩, by simp⟩, ?_⟩
  rcases v.color with _ | n
  · simp
  · rw [Option.map_some, Option.getD_some, String.toList_append, List.forall_mem_append]
    exact ⟨by simp, hdigits n⟩

theorem quoted?_vertexLine_iff : quoted? (InterferenceGraph.vertexLine v) = some (marks, "];")
    ↔ ReadAs v.inscription.toList marks := by
  have hopening : ("    v" ++ toString v.slot ++ " [label=\"").toList
      = "    v".toList ++ (toString v.slot).toList ++ " [label=".toList ++ ['"'] := by
    simp
  have hbefore : '"' ∉ "    v".toList ++ (toString v.slot).toList ++ " [label=".toList := by
    have hslot : '"' ∉ (toString v.slot).toList := quote_not_mem_toString v.slot.index
    simpa using hslot
  have hcaption : InterferenceGraph.caption v = quotesEscaped v.inscription := rfl
  rw [InterferenceGraph.vertexLine, quoted?_label hopening hbefore, hcaption, toList_quotesEscaped,
    ← scan_quotesEscapedChars_iff "];".toList, Option.map_eq_some_iff]
  constructor
  · rintro ⟨⟨ms, left⟩, hscan, heq⟩
    obtain ⟨rfl, hleft⟩ := Prod.mk.inj heq
    rw [hscan, ← hleft, String.toList_ofList]
  · exact fun hscan => ⟨_, hscan, by rw [String.ofList_toList]⟩

theorem captioned_vertexLine (v : Vertex) : Captioned v (InterferenceGraph.vertexLine v) := by
  obtain ⟨tail, htail, hne, hchars⟩ := v.exists_inscription
  -- what comes after the name has neither quotation marks nor backslashes, so the name decides
  have hquote : '"' ∉ tail := fun hmem => by simpa [Char.isDigit] using hchars _ hmem
  have hslash : '\\' ∉ tail := fun hmem => by simpa [Char.isDigit] using hchars _ hmem
  have hlast : v.inscription.toList.getLast? ≠ some '\\' := by
    rw [htail, List.getLast?_append_of_ne_nil _ hne]
    exact fun hlast => hslash (List.mem_of_getLast? hlast)
  refine ⟨⟨_, rfl⟩, ?_, ?_⟩
  · simp only [ClosesAtEnd, quoted?_vertexLine_iff]
    rw [exists_readAs_iff hlast, htail, quotesEven_append hquote]
  · simp only [GivesBack, quoted?_vertexLine_iff, ← String.toList_inj, String.toList_ofList]
    rw [exists_readAs_eq_iff, htail, List.mem_append, not_or, and_iff_left hslash]

end Vertex

/-- In the drawing of an interference graph the line of each vertex is read to its end exactly if
the backslashes before each quotation mark of the name are even in number, and it gives back name,
slot and register exactly if the name has no backslash. -/
theorem captions_exact (g : InterferenceGraph) : ∃ lines, g.drawing = "graph interference \x7b"
      :: lines ++ g.edges.map InterferenceGraph.edgeLine ++ ["\x7d"]
    ∧ List.Forall₂ Captioned g.vertices lines := by
  refine ⟨g.vertices.map InterferenceGraph.vertexLine, rfl, ?_⟩
  rw [List.forall₂_map_right_iff, List.forall₂_same]
  exact fun v _ => v.captioned_vertexLine

/-- A variable that is named by a backslash and a quotation mark. -/
def slashed : SymbolTable := (SymbolTable.declareAt ∅ "\\\"" ⟨1, Slot.one_lt_total⟩).1

/-- The backslash of the name takes the escape away from the quotation mark, which then closes the
text too early. -/
theorem caption_closes_early : ∃ v line, (InterferenceGraph.ofSymbols slashed).vertices = [v]
    ∧ (InterferenceGraph.ofSymbols slashed).drawing = ["graph interference \x7b", line, "\x7d"]
    ∧ v.name = "\\\"" ∧ quoted? line = some ([.escape '\\'], " (1)\"];")
    ∧ ¬ ClosesAtEnd line ∧ ¬ GivesBack line v.inscription := by
  have hquoted : quoted? "    v1 [label=\"\\\\\" (1)\"];" = some ([.escape '\\'], " (1)\"];") := by
    decide
  refine ⟨⟨"\\\"", ⟨1, Slot.one_lt_total⟩, ∅, none⟩, "    v1 [label=\"\\\\\" (1)\"];", by decide,
    by decide, rfl, hquoted, ?_, ?_⟩
  · rintro ⟨marks, hmarks⟩
    simp [hquoted] at hmarks
  · rintro ⟨marks, hmarks, -⟩
    simp [hquoted] at hmarks

end SlotColoring
