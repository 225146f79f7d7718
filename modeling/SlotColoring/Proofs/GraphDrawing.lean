import SlotColoring.BlockGraph.Drawing
import SlotColoring.Proofs.BlockEdges
import SlotColoring.Proofs.QuotedText

/-!
# What a drawing of a control-flow graph shows

The text in a box, read between its quotation marks, has a line for the name of the block and a line
for each instruction, whatever characters they have (`showsBlock_boxLine`).  The arrows are the
edges of the graph.  What is written on an arrow is made out from the end of the block and the label
of the other one.  In a finished graph there is no third way to get to a block, so an arrow that is
no jump goes to the next block (`Finished.isNext_of_not_jumpsTo`).
-/

namespace SlotColoring

open Text

/-- What is written on an arrow. -/
inductive ArrowKind where
  | jump
  | fallthrough
deriving DecidableEq

/-- What is written on an arrow. -/
def ArrowKind.text : ArrowKind → String
  | jump => "jump"
  | fallthrough => "fallthrough"

/-- An arrow from one block to another, which are given by their ids. -/
structure Arrow where
  start : Nat
  stop : Nat
  kind : ArrowKind
deriving DecidableEq

/-- The line that draws an arrow. -/
def Arrow.line (a : Arrow) : String :=
  "    b" ++ toString a.start ++ " -> b" ++ toString a.stop ++ " [label=\"" ++ a.kind.text ++ "\"];"

/-- The lines of a text that is written between quotation marks.  The escape `\l` ends a line, and
besides only quotation marks and backslashes are escaped. -/
def flushLines? (current : List Char) : List Mark → Option (List String)
  | [] => if current = [] then some [] else none
  | .plain c :: ms => flushLines? (current ++ [c]) ms
  | .escape c :: ms =>
    if c = 'l' then (flushLines? [] ms).map fun ls => String.ofList current :: ls
    else if c = '\\' ∨ c = '"' then flushLines? (current ++ [c]) ms
    else none

/-- The name of a block and its instructions, each on a line. -/
def Block.shown (b : Block) : List String :=
  (b.name ++ ":") :: b.body.map fun i => "  " ++ i.opcode.text

/-- The line draws the block: the text between its quotation marks ends where the line does, and
shows the block. -/
structure ShowsBlock (b : Block) (line : String) : Prop where
  box : ∃ text, line = "    b" ++ toString b.id ++ " [shape=box, label=\"" ++ text ++ "\"];"
  reads : ∃ marks, quoted? line = some (marks, "];") ∧ flushLines? [] marks = some b.shown

/-- The arrows draw the edges of the graph, by the order of the blocks that they start at and then
by the ids of those that they go to. -/
structure ShowsEdges (g : BlockGraph) (arrows : List Arrow) : Prop where
  ids : (g.blocks.map Block.id).Nodup
  edges : ∀ x y, (∃ kind, ⟨x, y, kind⟩ ∈ arrows) ↔ y ∈ g.succs x
  ordered : arrows.Pairwise fun e f => [e.start, f.start].Sublist (g.blocks.map Block.id)
    ∨ e.start = f.start ∧ e.stop < f.stop
  kinds : ∀ e ∈ arrows, ∃ a ∈ g.blocks, ∃ c ∈ g.blocks, a.id = e.start ∧ c.id = e.stop
    ∧ (e.kind = .jump ↔ ∃ l, a.target? = some l ∧ c.label = some l)
    ∧ (e.kind = .fallthrough → IsNext g.blocks a c ∧ a.endsInGoto = false)

/-- The lines draw the graph, block by block and then edge by edge. -/
def Draws (lines : List String) (g : BlockGraph) : Prop :=
  ∃ first boxes arrows last, lines = first :: boxes ++ arrows.map Arrow.line ++ [last]
    ∧ List.Forall₂ ShowsBlock g.blocks boxes ∧ ShowsEdges g arrows

section Boxes

/-- The marks of a line of a box. -/
def lineMarks (s : String) : List Mark := s.toList.map markOf ++ [.escape 'l']

theorem flushLines?_markOf (ms : List Mark) : ∀ (cs current : List Char),
    flushLines? current (cs.map markOf ++ ms) = flushLines? (current ++ cs) ms
  | [], current => by simp
  | c :: cs, current => by
    have hstep : flushLines? current (markOf c :: (cs.map markOf ++ ms))
        = flushLines? (current ++ [c]) (cs.map markOf ++ ms) := by
      unfold markOf
      by_cases hc : c = '\\' ∨ c = '"'
      · have hl : c ≠ 'l' := by rcases hc with rfl | rfl <;> decide
        rw [if_pos hc, flushLines?, if_neg hl, if_pos hc]
      · rw [if_neg hc, flushLines?]
    rw [List.map_cons, List.cons_append, hstep, flushLines?_markOf ms cs, List.append_assoc,
      List.singleton_append]

theorem flushLines?_lineMarks : ∀ ls : List String,
    flushLines? [] (ls.flatMap lineMarks) = some ls
  | [] => rfl
  | s :: ls => by
    rw [List.flatMap_cons, lineMarks, List.append_assoc, flushLines?_markOf, List.nil_append,
      List.singleton_append, flushLines?, if_pos rfl, flushLines?_lineMarks ls,
      String.ofList_toList]
    rfl

theorem toList_boxText (b : Block) : (BlockGraph.boxText b).toList
    = b.shown.flatMap fun s => (escaped s).toList ++ ['\\', 'l'] := by
  have hname : (escaped (b.name ++ ":")).toList = (escaped b.name).toList ++ [':'] := by
    simp [escaped, escapedChar]
  have hbody : ∀ i : Instruction, (escaped ("  " ++ i.opcode.text)).toList
      = [' ', ' '] ++ (escaped i.opcode.text).toList := fun i => by
    simp [escaped, escapedChar]
  simp [BlockGraph.boxText, Block.shown, hname, hbody, String.toList_join, List.flatMap_map]

theorem scans_boxText (b : Block) :
    Scans (BlockGraph.boxText b).toList (b.shown.flatMap lineMarks) := by
  rw [toList_boxText]
  exact .flatMap (fun s => (scans_escaped s).append (.escape 'l')) b.shown

theorem showsBlock_boxLine (b : Block) : ShowsBlock b (BlockGraph.boxLine b) := by
  have hopening : ("    b" ++ toString b.id ++ " [shape=box, label=\"").toList
      = "    b".toList ++ (toString b.id).toList ++ " [shape=box, label=".toList ++ ['"'] := by
    simp
  have hbefore :
      '"' ∉ "    b".toList ++ (toString b.id).toList ++ " [shape=box, label=".toList := by
    simpa using quote_not_mem_toString b.id
  refine ⟨⟨_, rfl⟩, b.shown.flatMap lineMarks, ?_, flushLines?_lineMarks b.shown⟩
  rw [BlockGraph.boxLine, quoted?_label hopening hbefore, (scans_boxText b).scan_close,
    Option.map_some, String.ofList_toList]

end Boxes

section Arrows

variable {events : List Event} {g : BlockGraph} {a c : Block}

namespace BlockGraph

/-- The arrow from a block to the one with id `s`. -/
def arrow (g : BlockGraph) (b : Block) (s : Nat) : Arrow :=
  ⟨b.id, s, if g.jumpsTo b s then .jump else .fallthrough⟩

/-- The arrows of the drawing of a graph. -/
def arrows (g : BlockGraph) : List Arrow :=
  g.blocks.flatMap fun b => (g.succs b.id).toList.map (g.arrow b)

theorem edgeLine_eq (g : BlockGraph) (b : Block) (s : Nat) :
    g.edgeLine b s = (g.arrow b s).line := by
  unfold edgeLine arrow Arrow.line
  by_cases hjump : g.jumpsTo b s = true
  · simp [hjump, ArrowKind.text]
  · simp [hjump, ArrowKind.text]

theorem drawing_eq (g : BlockGraph) :
    g.drawing = ("digraph \"" ++ escaped g.head.className ++ "\" \x7b")
      :: g.blocks.map boxLine ++ g.arrows.map Arrow.line ++ ["\x7d"] := by
  have hedges : ∀ b : Block, g.edgeLine b = Arrow.line ∘ g.arrow b := fun b =>
    funext (g.edgeLine_eq b)
  rw [drawing, arrows, List.map_flatMap]
  simp only [List.map_map, hedges]

theorem mem_arrows {e : Arrow} :
    e ∈ g.arrows ↔ ∃ b ∈ g.blocks, ∃ s ∈ g.succs b.id, g.arrow b s = e := by
  simp only [arrows, List.mem_flatMap, List.mem_map, OrdSet.mem_toList]

theorem arrow_kind_eq_jump_iff (g : BlockGraph) (b : Block) (s : Nat) :
    (g.arrow b s).kind = .jump ↔ g.jumpsTo b s = true := by
  unfold arrow
  by_cases hjump : g.jumpsTo b s = true
  · simp [hjump]
  · simp [hjump]

theorem pairwise_arrows (g : BlockGraph) : g.arrows.Pairwise fun e f =>
    [e.start, f.start].Sublist (g.blocks.map Block.id) ∨ e.start = f.start ∧ e.stop < f.stop := by
  unfold arrows
  rw [List.pairwise_flatMap]
  constructor
  · intro b _
    rw [List.pairwise_map]
    exact (g.succs b.id).ascending.imp fun hlt => Or.inr ⟨rfl, hlt⟩
  · -- arrows of different blocks are in the order of these blocks
    refine List.pairwise_iff_forall_sublist.mpr fun {a b} hab e he f hf => Or.inl ?_
    obtain ⟨s, -, rfl⟩ := List.mem_map.mp he
    obtain ⟨t, -, rfl⟩ := List.mem_map.mp hf
    exact hab.map Block.id

theorem jumpsTo_iff (hids : (g.blocks.map Block.id).Nodup) (hc : c ∈ g.blocks) :
    g.jumpsTo a c.id = true ↔ ∃ l, a.target? = some l ∧ c.label = some l := by
  unfold jumpsTo
  rw [block?_eq_some hids hc, Option.bind_some, ← Block.target?]
  rcases a.target? with _ | t
  · simp
  rcases c.label with _ | l
  · simp
  change (t == l) = true ↔ _
  rw [beq_iff_eq]
  constructor
  · rintro rfl
    exact ⟨t, rfl, rfl⟩
  · rintro ⟨m, ht, hl⟩
    rw [Option.some.inj ht, Option.some.inj hl]

end BlockGraph

namespace Finished

/-- Control that does not jump to a block comes from the block before it. -/
theorem isNext_of_not_jumpsTo (h : Finished events g) (ha : a ∈ g.blocks) (hc : c ∈ g.blocks)
    (hsucc : c.id ∈ g.succs a.id) (hjump : g.jumpsTo a c.id = false) :
    IsNext g.blocks a c ∧ a.endsInGoto = false := by
  obtain ⟨d, hd, hid, hjoin⟩ := (h.mem_succs_iff ha c.id).mp hsucc
  rw [h.eq_of_id_eq hd hc hid] at hjoin
  rcases hjoin with ⟨hgoto, hnext⟩ | hlabel
  · exact ⟨hnext, hgoto⟩
  · rw [(BlockGraph.jumpsTo_iff h.ids hc).mpr hlabel] at hjump
    exact absurd hjump (by simp)

theorem showsEdges (h : Finished events g) : ShowsEdges g g.arrows := by
  refine ⟨h.ids, fun x y => ?_, g.pairwise_arrows, fun e he => ?_⟩
  · constructor
    · rintro ⟨kind, he⟩
      obtain ⟨b, -, s, hs, heq⟩ := BlockGraph.mem_arrows.mp he
      obtain ⟨rfl, rfl, -⟩ := Arrow.mk.inj heq
      exact hs
    · intro hy
      obtain ⟨a, ha, -, -, rfl, -⟩ := (h.adj_iff x y).mp (Digraph.mem_succs.mp hy)
      exact ⟨(g.arrow a y).kind, BlockGraph.mem_arrows.mpr ⟨a, ha, y, hy, rfl⟩⟩
  · obtain ⟨a, ha, s, hs, rfl⟩ := BlockGraph.mem_arrows.mp he
    obtain ⟨c, hc, rfl, -⟩ := (h.mem_succs_iff ha s).mp hs
    refine ⟨a, ha, c, hc, rfl, rfl, ?_, fun hfall => h.isNext_of_not_jumpsTo ha hc hs ?_⟩
    · rw [g.arrow_kind_eq_jump_iff, BlockGraph.jumpsTo_iff h.ids hc]
    · rw [← Bool.not_eq_true, ← g.arrow_kind_eq_jump_iff, hfall]
      decide

end Finished

end Arrows

/-- The drawing of a finished graph shows its blocks in program order and then its edges, and on an
edge stands how control takes it. -/
theorem drawing_faithful {head : Head} {events : List Event} {g : BlockGraph}
    (h : BlockGraph.build head events = .ok g) : Draws g.drawing g := by
  refine ⟨_, g.blocks.map BlockGraph.boxLine, g.arrows, _, g.drawing_eq, ?_,
    (BlockGraph.finished_of_build h).showsEdges⟩
  rw [List.forall₂_map_right_iff, List.forall₂_same]
  exact fun b _ => showsBlock_boxLine b

/-- Quotation marks and backslashes in a label and in an operand. -/
def quotedNames : List Event :=
  [.label "a\"\\l", .emit (.other "ldc" ["\"\\\""]), .jump (.zero .ne) "a\"\\l", .label "b",
    .emit (.jump .always "a\"\\l")]

theorem drawing_faithful_quotedNames : ∃ g, BlockGraph.build .blank quotedNames = .ok g
    ∧ g.blocks.map Block.name = ["a\"\\l", "b"] ∧ Draws g.drawing g := by
  have hb : BlockGraph.build .blank quotedNames = .ok _ := rfl
  exact ⟨_, hb, by decide, drawing_faithful hb⟩

end SlotColoring
