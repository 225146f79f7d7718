import SlotColoring.Proofs.CompileOutcome

/-!
# The names of labels do not matter

Labels are only compared, so an injective renaming of the labels of a stream of events renames the
labels of what the builder makes of them and changes nothing else (`Builder.feed_relabel`): the
same blocks, edges and instructions come out, or the same error with its labels renamed
(`BlockGraph.build_relabel`).  The flow graph does not show labels at all, so registers are given
out as before (`BlockGraph.allocate_relabel`).

Lowering takes its labels from a count.  Started from another count it makes the same code, with
the labels renamed by what was added to their counts (`Renumbers`, `Program.code_renumber`).
-/

namespace SlotColoring

section Relabel

variable (r : Label → Label)

/-- The instruction with the label that it names renamed. -/
def Opcode.relabel : Opcode → Opcode
  | .jump c l => .jump c (r l)
  | op => op

/-- The event with its label renamed. -/
def Event.relabel : Event → Event
  | .emit op => .emit (op.relabel r)
  | .label l => .label (r l)
  | .jump c l => .jump c (r l)

/-- The instruction with the target of its jump renamed. -/
def Instruction.relabel (i : Instruction) : Instruction := { i with opcode := i.opcode.relabel r }

/-- The block with its label and the targets of its jumps renamed. -/
def Block.relabel (x : Block) : Block :=
  { x with label := x.label.map r, body := x.body.map (Instruction.relabel r) }

/-- The graph with its labels and the targets of its jumps renamed; ids and edges stay. -/
def BlockGraph.relabel (g : BlockGraph) : BlockGraph :=
  { g with blocks := g.blocks.map (Block.relabel r) }

/-- The jumps that wait, with the labels that they wait for renamed. -/
def PendingJumps.relabel (p : PendingJumps) : PendingJumps :=
  ⟨p.entries.map fun e => (r e.1, e.2)⟩

/-- The builder with its labels renamed; ids and edges stay. -/
def Builder.relabel (b : Builder) : Builder :=
  { b with blocks := b.blocks.map (Block.relabel r), pending := b.pending.relabel r }

/-- The error about the renamed labels, which are listed in their own order. -/
def BuildError.relabel : BuildError → BuildError
  | .duplicateLabel l => .duplicateLabel (r l)
  | .unresolvedLabels ls => .unresolvedLabels (OrdSet.ofList (ls.map r)).toList

section Views

@[simp]
theorem Opcode.isGoto_relabel (op : Opcode) : (op.relabel r).isGoto = op.isGoto := by
  rcases op with s | s | ⟨c, l⟩ | ⟨m, operands⟩
  · rfl
  · rfl
  · cases c <;> rfl
  · rfl

@[simp]
theorem Opcode.reads?_relabel (op : Opcode) : (op.relabel r).reads? = op.reads? := by
  cases op <;> rfl

@[simp]
theorem Opcode.writes?_relabel (op : Opcode) : (op.relabel r).writes? = op.writes? := by
  cases op <;> rfl

theorem Block.endsInGoto_relabel (x : Block) : (x.relabel r).endsInGoto = x.endsInGoto := by
  simp only [endsInGoto, lastOpcode?, Block.relabel, List.getLast?_map, Option.map_map]
  rcases x.body.getLast? with _ | i
  · rfl
  · simp [Instruction.relabel]

theorem Block.isRemovable_relabel (x : Block) : (x.relabel r).isRemovable = x.isRemovable := by
  simp [isRemovable, Block.relabel]

end Views

variable {r} (hr : Function.Injective r)

section Pending

variable (p : PendingJumps) (l : Label)

include hr

theorem PendingJumps.waitingOn_relabel : (p.relabel r).waitingOn (r l) = p.waitingOn l := by
  simp only [waitingOn, PendingJumps.relabel, List.filter_map, List.map_map]
  refine congrArg (List.map Prod.snd) (List.filter_congr fun e _ => ?_)
  simp [hr.eq_iff]

theorem PendingJumps.settle_relabel : (p.relabel r).settle (r l) = (p.settle l).relabel r := by
  simp only [settle, PendingJumps.relabel, List.filter_map, PendingJumps.mk.injEq]
  refine congrArg (List.map _) (List.filter_congr fun e _ => ?_)
  simp [hr.eq_iff]

omit hr

theorem PendingJumps.record_relabel (block : Nat) :
    (p.relabel r).record (r l) block = (p.record l block).relabel r := by
  simp [record, PendingJumps.relabel]

theorem PendingJumps.labels_relabel :
    (p.relabel r).labels = OrdSet.ofList (p.labels.toList.map r) := by
  refine OrdSet.ext_mem fun m => ?_
  simp [labels, PendingJumps.relabel]

end Pending

namespace Builder

variable (b : Builder)

theorem graph_relabel : (b.relabel r).graph = b.graph.relabel r := by
  simp [graph, Builder.relabel, BlockGraph.relabel]

theorem instCount_relabel : (b.relabel r).instCount = b.instCount := by
  simp only [instCount, Builder.relabel]
  induction b.blocks with
  | nil => rfl
  | cons x bs ih => simp [sumOf, ih, Block.relabel]

theorem nextBlock_relabel : (b.relabel r).nextBlock = b.nextBlock := by
  simp [nextBlock, Builder.relabel]

theorem currentId_relabel : (b.relabel r).currentId = b.currentId := by
  simp [currentId, Builder.relabel]

theorem openBlock_relabel (label : Option Label) :
    (b.relabel r).openBlock (label.map r) = (b.openBlock label).relabel r := by
  rcases b with ⟨head, _ | ⟨prev, older⟩, flow, pending⟩
  · rfl
  · simp only [openBlock, Builder.relabel, nextBlock, List.map_cons, List.length_cons,
      List.length_map, Block.endsInGoto_relabel]
    rfl

theorem push_relabel (op : Opcode) :
    (b.relabel r).push (op.relabel r) = (b.push op).relabel r := by
  have hcount := b.instCount_relabel (r := r)
  rcases b with ⟨head, _ | ⟨cur, older⟩, flow, pending⟩
  · rfl
  · simp only [push, hcount]
    simp [Builder.relabel, Block.relabel, Instruction.relabel]

include hr

theorem findLabel?_relabel (l : Label) : (b.relabel r).findLabel? (r l) = b.findLabel? l := by
  have htest : ∀ x : Block, ((x.relabel r).label == some (r l)) = (x.label == some l) := by
    intro x
    rw [Bool.eq_iff_iff, beq_iff_eq, beq_iff_eq, ← Option.map_some]
    exact (Option.map_injective hr).eq_iff
  simp only [findLabel?, graph_relabel, BlockGraph.findLabel?, BlockGraph.relabel, List.find?_map,
    Option.map_map, Function.comp_def, htest]
  rfl

theorem addJump_relabel (c : Condition) (l : Label) :
    (b.relabel r).addJump c (r l) = (b.addJump c l).relabel r := by
  have hpush : (b.relabel r).push (.jump c (r l)) = (b.push (.jump c l)).relabel r :=
    b.push_relabel (.jump c l)
  simp only [addJump, hpush, b.findLabel?_relabel hr, b.currentId_relabel]
  rcases b.findLabel? l with _ | dest
  · simp only [← openBlock_relabel, Option.map_none]
    simp only [Builder.relabel, PendingJumps.record_relabel]
  · simp only [← openBlock_relabel, Option.map_none]
    rfl

theorem addInstruction_relabel (op : Opcode) :
    (b.relabel r).addInstruction (op.relabel r) = (b.addInstruction op).relabel r := by
  cases op with
  | jump c l => exact b.addJump_relabel hr c l
  | load s => exact b.push_relabel (.load s)
  | store s => exact b.push_relabel (.store s)
  | other m operands => exact b.push_relabel (.other m operands)

theorem addLabel_relabel (l : Label) : (b.relabel r).addLabel (r l)
    = ((b.addLabel l).map (Builder.relabel r)).mapError (BuildError.relabel r) := by
  have hopen : (b.relabel r).openBlock (some (r l)) = (b.openBlock (some l)).relabel r :=
    b.openBlock_relabel (some l)
  have hwaiting : (b.relabel r).pending.waitingOn (r l) = b.pending.waitingOn l :=
    b.pending.waitingOn_relabel hr l
  have hsettle : (b.relabel r).pending.settle (r l) = (b.pending.settle l).relabel r :=
    b.pending.settle_relabel hr l
  simp only [addLabel, b.findLabel?_relabel hr, hopen, hwaiting, hsettle, b.nextBlock_relabel]
  split_ifs <;> rfl

/-- The renamed event does to the renamed builder what the event does to the builder. -/
theorem feed_relabel (e : Event) : (b.relabel r).feed (e.relabel r)
    = ((b.feed e).map (Builder.relabel r)).mapError (BuildError.relabel r) := by
  cases e with
  | emit op => exact congrArg Except.ok (b.addInstruction_relabel hr op)
  | label l => exact b.addLabel_relabel hr l
  | jump c l => exact congrArg Except.ok (b.addJump_relabel hr c l)

theorem feedAll_relabel : ∀ (es : List Event) (b : Builder),
    (b.relabel r).feedAll (es.map (Event.relabel r))
      = ((b.feedAll es).map (Builder.relabel r)).mapError (BuildError.relabel r)
  | [], _ => rfl
  | e :: es, b => by
    rw [List.map_cons, feedAll, b.feed_relabel hr, feedAll]
    rcases b.feed e with err | b'
    · rfl
    · exact feedAll_relabel es b'

end Builder

section Finish

theorem BlockGraph.purge_relabel (g : BlockGraph) : (g.relabel r).purge = g.purge.relabel r := by
  simp only [purge, BlockGraph.relabel, List.filter_map, Function.comp_def,
    Block.isRemovable_relabel, List.map_map]
  rfl

theorem Builder.finish_relabel (b : Builder) : (b.relabel r).finish
    = (b.finish.map (BlockGraph.relabel r)).mapError (BuildError.relabel r) := by
  have hempty : (b.relabel r).pending.isEmpty = b.pending.isEmpty := by
    simp [PendingJumps.isEmpty, Builder.relabel, PendingJumps.relabel]
  have hlabels : (b.relabel r).pending.labels = OrdSet.ofList (b.pending.labels.toList.map r) :=
    b.pending.labels_relabel
  simp only [finish, hempty, hlabels, b.graph_relabel, BlockGraph.purge_relabel]
  split_ifs <;> rfl

include hr

theorem BlockGraph.build_relabel (head : Head) (events : List Event) :
    BlockGraph.build head (events.map (Event.relabel r))
      = ((BlockGraph.build head events).map (BlockGraph.relabel r)).mapError
          (BuildError.relabel r) := by
  have hstart : Builder.start head = (Builder.start head).relabel r := rfl
  have hfeed := Builder.feedAll_relabel hr events (.start head)
  rw [← hstart] at hfeed
  simp only [build, hfeed]
  rcases (Builder.start head).feedAll events with err | b
  · rfl
  · exact b.finish_relabel

end Finish

end Relabel

section Allocate

variable (r : Label → Label)

namespace BlockGraph

theorem firstNode?_relabel (id : Nat) : ∀ (bs : List Block) (n : Nat),
    firstNode? id (bs.map (Block.relabel r)) n = firstNode? id bs n
  | [], _ => rfl
  | b :: bs, n => by
    simp [firstNode?, Block.relabel, firstNode?_relabel id bs]

theorem bodyNodes_relabel (after : OrdSet Nat) : ∀ (is : List Instruction) (n : Nat),
    bodyNodes after (is.map (Instruction.relabel r)) n = bodyNodes after is n
  | [], _ => rfl
  | [i], _ => by simp [bodyNodes, Instruction.relabel]
  | i :: j :: is, n => by
    have ih := bodyNodes_relabel after (j :: is) (n + 1)
    rw [List.map_cons, List.map_cons, bodyNodes, ← List.map_cons, ih, bodyNodes]
    simp [Instruction.relabel]

variable (g : BlockGraph)

theorem hollowEdges_relabel : (g.relabel r).hollowEdges = g.hollowEdges := by
  simp only [hollowEdges, BlockGraph.relabel, List.filter_map, List.map_map, Function.comp_def,
    Block.relabel, List.isEmpty_map]

theorem nodesAfter_relabel (hollow : List (Nat × Nat)) (x : Block) :
    (g.relabel r).nodesAfter hollow (x.relabel r) = g.nodesAfter hollow x := by
  have hlandings : (g.relabel r).landings hollow (x.relabel r) = g.landings hollow x := rfl
  have hfirst : ∀ id, firstNode? id (g.relabel r).blocks 0 = firstNode? id g.blocks 0 :=
    fun id => firstNode?_relabel r id g.blocks 0
  simp only [nodesAfter, hlandings, hfirst]

theorem nodesFrom_relabel (hollow : List (Nat × Nat)) : ∀ (bs : List Block) (n : Nat),
    (g.relabel r).nodesFrom hollow (bs.map (Block.relabel r)) n = g.nodesFrom hollow bs n
  | [], _ => rfl
  | x :: bs, n => by
    have hbody : (x.relabel r).body = x.body.map (Instruction.relabel r) := rfl
    rw [List.map_cons, nodesFrom, nodesAfter_relabel, nodesFrom_relabel hollow bs, hbody,
      bodyNodes_relabel, List.length_map, nodesFrom]

theorem flowGraph_relabel : (g.relabel r).flowGraph = g.flowGraph := by
  have hnodes : (g.relabel r).nodesFrom g.hollowEdges (g.relabel r).blocks 0
      = g.nodesFrom g.hollowEdges g.blocks 0 := g.nodesFrom_relabel r g.hollowEdges g.blocks 0
  rw [flowGraph, hollowEdges_relabel, hnodes, flowGraph]

theorem allocate_relabel (t : SymbolTable) : (g.relabel r).allocate t = g.allocate t := by
  rw [allocate, flowGraph_relabel, allocate]

end BlockGraph

end Allocate

section Renumber

/-- The renaming takes the label of any kind that is `k` counts after `m` to the one that is `k`
counts after `n`. -/
def Renumbers (r : Label → Label) (m n : Nat) : Prop :=
  ∀ kind k, r (freshLabel kind (m + k)) = freshLabel kind (n + k)

theorem Renumbers.add {r : Label → Label} {m n : Nat} (h : Renumbers r m n) (d : Nat) :
    Renumbers r (m + d) (n + d) := fun kind k => by
  rw [Nat.add_assoc, h, Nat.add_assoc]

theorem exists_renumbers (m n : Nat) : ∃ r : Label → Label, Function.Injective r
    ∧ Renumbers r m n := by
  -- labels that lowering does not make from `m` on are moved out of the way
  let counted (i : Nat) (x : String × Nat) : Label := freshLabel x.1 (i + x.2)
  have hcounted : ∀ i, Function.Injective (counted i) := fun i x y h => by
    obtain ⟨hkind, hcount⟩ := freshLabel_inj h
    exact Prod.ext hkind (Nat.add_left_cancel hcount)
  let aside (l : Label) : Label := "-" ++ l
  have haside : Function.Injective aside := fun l l' h => by
    have hchars := congrArg String.toList h
    simpa [aside, String.toList_inj] using hchars
  have hapart : ∀ x l, counted n x ≠ aside l := fun x l h => by
    have hchars := congrArg (fun s => s.toList.head?) h
    simp [counted, aside, toList_freshLabel] at hchars
  refine ⟨Function.extend (counted m) (counted n) aside, fun l l' h => ?_, fun kind k => ?_⟩
  · by_cases hl : ∃ x, counted m x = l <;> by_cases hl' : ∃ x, counted m x = l'
    · obtain ⟨x, rfl⟩ := hl
      obtain ⟨y, rfl⟩ := hl'
      rw [(hcounted m).extend_apply, (hcounted m).extend_apply] at h
      rw [hcounted n h]
    · obtain ⟨x, rfl⟩ := hl
      rw [(hcounted m).extend_apply, Function.extend_apply' _ _ _ hl'] at h
      exact absurd h (hapart x l')
    · obtain ⟨y, rfl⟩ := hl'
      rw [(hcounted m).extend_apply, Function.extend_apply' _ _ _ hl] at h
      exact absurd h.symm (hapart y l)
    · rw [Function.extend_apply' _ _ _ hl, Function.extend_apply' _ _ _ hl'] at h
      exact haside h
  · exact (hcounted m).extend_apply (counted n) aside (kind, k)

/-- The code with the labels of its events renamed. -/
def Code.relabel (r : Label → Label) (code : Code) : Code :=
  code.map (Except.map (Event.relabel r))

namespace Code

variable (r : Label → Label)

@[simp]
theorem relabel_nil : relabel r [] = [] := rfl

@[simp]
theorem relabel_append (code code' : Code) :
    relabel r (code ++ code') = relabel r code ++ relabel r code' :=
  List.map_append

@[simp]
theorem relabel_cons_label (l : Label) (code : Code) :
    relabel r (label l :: code) = label (r l) :: relabel r code := rfl

@[simp]
theorem relabel_cons_jump (c : Condition) (l : Label) (code : Code) :
    relabel r (jump c l :: code) = jump c (r l) :: relabel r code := rfl

@[simp]
theorem relabel_cons_instruction (m : String) (operands : List String) (code : Code) :
    relabel r (instruction m operands :: code) = instruction m operands :: relabel r code := rfl

theorem relabel_load (t : SymbolTable) (x : String) (span : Span) :
    relabel r [load t x span] = [load t x span] := by
  unfold load
  split <;> rfl

theorem events_relabel : ∀ code : Code,
    (relabel r code).events = code.events.map (List.map (Event.relabel r))
  | [] => rfl
  | .error u :: code => rfl
  | .ok e :: code => by
    have hcons : relabel r (.ok e :: code) = .ok (e.relabel r) :: relabel r code := rfl
    rw [hcons, events, events_relabel code, events]
    rcases events code with u | es <;> rfl

end Code

/-- The second code is the first with its labels renamed, and so are those of the code that is
numbered on from there. -/
def Renumbered (r : Label → Label) (c c' : Code × Nat) : Prop :=
  Renumbers r c.2 c'.2 ∧ c'.1 = Code.relabel r c.1

variable {r : Label → Label} {t : SymbolTable}

theorem Expr.code_renumber : ∀ (e : Expr) {m n : Nat}, Renumbers r m n →
    Renumbered r (e.code t m) (e.code t n)
  | .int _ i, m, n, h => ⟨h, rfl⟩
  | .bool _ b, m, n, h => ⟨h, rfl⟩
  | .var span x, m, n, h => ⟨h, (Code.relabel_load r t x span).symm⟩
  | .unary _ .neg e, m, n, h => by
    obtain ⟨hcount, hcode⟩ := e.code_renumber h
    exact ⟨hcount, by simp [code, hcode]⟩
  | .unary _ .not e, m, n, h => by
    obtain ⟨hcount, hcode⟩ := e.code_renumber h
    exact ⟨hcount, by simp [code, hcode]⟩
  | .binary _ (.arith op) l r, m, n, h => by
    obtain ⟨hcount, hl⟩ := l.code_renumber h
    obtain ⟨hcount, hr⟩ := r.code_renumber hcount
    exact ⟨hcount, by simp [code, hl, hr]⟩
  | .binary _ (.compare c) l r, m, n, h => by
    have hyes := h "true" 0
    have hdone := h "cmp" 1
    obtain ⟨hcount, hl⟩ := l.code_renumber (h.add 2)
    obtain ⟨hcount, hr⟩ := r.code_renumber hcount
    simp only [Nat.add_zero] at hyes
    exact ⟨hcount, by simp [code, hl, hr, hyes, hdone]⟩

theorem Stmt.storeCode_renumber (span : Span) (x : String) (e : Expr) {m n : Nat}
    (h : Renumbers r m n) : Renumbered r (storeCode t span x e m) (storeCode t span x e n) := by
  obtain ⟨hcount, hcode⟩ := e.code_renumber (t := t) h
  unfold storeCode
  split
  · exact ⟨h, rfl⟩
  · refine ⟨hcount, ?_⟩
    simp only [hcode, Code.relabel_append]
    rfl

mutual

theorem Stmt.code_renumber : ∀ (s : Stmt) {m n : Nat}, Renumbers r m n →
    Renumbered r (s.code t m) (s.code t n)
  | .decl span x e, m, n, h => Stmt.storeCode_renumber span x e h
  | .assign span x e, m, n, h => Stmt.storeCode_renumber span x e h
  | .print _ e, m, n, h => by
    obtain ⟨hcount, hcode⟩ := e.code_renumber (t := t) h
    exact ⟨hcount, by simp [code, hcode]⟩
  | .ifElse _ c yes no, m, n, h => by
    have helse := h "else" 0
    have hdone := h "endif" 1
    obtain ⟨hcount, hc⟩ := c.code_renumber (t := t) (h.add 2)
    obtain ⟨hcount, hyes⟩ := Stmt.codeAll_renumber yes hcount
    obtain ⟨hcount, hno⟩ := Stmt.codeAll_renumber no hcount
    simp only [Nat.add_zero] at helse
    exact ⟨hcount, by simp [code, hc, hyes, hno, helse, hdone]⟩
  | .loop _ c body, m, n, h => by
    have hagain := h "while" 0
    have hdone := h "done" 1
    obtain ⟨hcount, hc⟩ := c.code_renumber (t := t) (h.add 2)
    obtain ⟨hcount, hbody⟩ := Stmt.codeAll_renumber body hcount
    simp only [Nat.add_zero] at hagain
    exact ⟨hcount, by simp [code, hc, hbody, hagain, hdone]⟩

theorem Stmt.codeAll_renumber : ∀ (ss : List Stmt) {m n : Nat}, Renumbers r m n →
    Renumbered r (Stmt.codeAll t ss m) (Stmt.codeAll t ss n)
  | [], m, n, h => ⟨h, rfl⟩
  | s :: ss, m, n, h => by
    obtain ⟨hcount, hs⟩ := s.code_renumber h
    obtain ⟨hcount, hss⟩ := Stmt.codeAll_renumber ss hcount
    exact ⟨hcount, by simp [codeAll, hs, hss]⟩

end

theorem Program.code_renumber (p : Program) {m n : Nat} (h : Renumbers r m n) :
    p.code t n = Code.relabel r (p.code t m) := by
  obtain ⟨-, hcode⟩ := Stmt.codeAll_renumber (t := t) p.body h
  simp [code, hcode]

/-- The error about the renamed labels, if it is about labels. -/
def LoweringError.relabel (r : Label → Label) : LoweringError → LoweringError
  | .build e => .build (e.relabel r)
  | e => e

/-- From another count on, lowering comes to the same with its labels renamed. -/
theorem Program.lower_renumber (p : Program) {m n : Nat} (hr : Function.Injective r)
    (h : Renumbers r m n) : p.lower t n
      = ((p.lower t m).map (BlockGraph.relabel r)).mapError (LoweringError.relabel r) := by
  unfold lower
  rw [p.code_renumber h, Code.events_relabel]
  rcases p.maxStackDepth with e | depth
  · rfl
  rcases (p.code t m).events with u | events
  · rfl
  simp only [Except.map, BlockGraph.build_relabel hr]
  rcases BlockGraph.build _ events with e | g <;> rfl

end Renumber

theorem Program.exists_allocate {p : Program} {t : SymbolTable} {n : Nat} {g : BlockGraph}
    (h : p.lower t n = .ok g) : ∃ a, g.allocate t = .ok a := by
  obtain ⟨depth, events, -, hcode, hbuild⟩ := Program.lower_ok h
  exact BlockGraph.exists_allocate hbuild (Program.slots_of_code hcode)

/-- An injective renaming of labels changes nothing in what is built from a stream of events but the
labels, and nothing at all in its registers.  So it does not matter either from which count on
lowering numbers its labels. -/
theorem label_names_irrelevant :
    (∀ r : Label → Label, Function.Injective r → ∀ (head : Head) (events : List Event),
        ((∃ g, BlockGraph.build head (events.map (Event.relabel r)) = .ok g) ↔
          ∃ g, BlockGraph.build head events = .ok g)
        ∧ ∀ g, BlockGraph.build head events = .ok g →
          BlockGraph.build head (events.map (Event.relabel r)) = .ok (g.relabel r)
            ∧ ∀ t, (g.relabel r).allocate t = g.allocate t)
      ∧ ∀ (p : Program) (t : SymbolTable) (m n : Nat),
        (∃ e, p.lower t m = .error e ∧ p.lower t n = .error e)
        ∨ ∃ g r a, Function.Injective r ∧ p.lower t m = .ok g ∧ p.lower t n = .ok (g.relabel r)
            ∧ g.allocate t = .ok a ∧ (g.relabel r).allocate t = .ok a := by
  refine ⟨fun r hr head events => ?_, fun p t m n => ?_⟩
  · have hbuild := BlockGraph.build_relabel hr head events
    refine ⟨?_, fun g hg => ⟨?_, g.allocate_relabel r⟩⟩
    · rw [hbuild]
      rcases BlockGraph.build head events with e | g
      · simp [Except.map, Except.mapError]
      · simp [Except.map, Except.mapError]
    · rw [hbuild, hg]
      rfl
  · obtain ⟨r, hr, hcounts⟩ := exists_renumbers m n
    have hlower := p.lower_renumber (t := t) hr hcounts
    rcases p.lower_cases t m with ⟨g, hg⟩ | ⟨u, hu, -⟩
    · obtain ⟨a, ha⟩ := Program.exists_allocate hg
      rw [hg] at hlower
      exact Or.inr ⟨g, r, a, hr, hg, hlower, ha, (g.allocate_relabel r t).trans ha⟩
    · rw [hu] at hlower
      exact Or.inl ⟨_, hu, hlower⟩

theorem label_names_irrelevant_countdown :
    Function.Injective (fun l : Label => "x" ++ l)
      ∧ (∃ g, BlockGraph.build .blank stackedLabels = .ok g
        ∧ BlockGraph.build .blank (stackedLabels.map (Event.relabel fun l => "x" ++ l))
          = .ok (g.relabel fun l => "x" ++ l))
      ∧ ∃ g r a, Function.Injective r ∧ countdown.lower countdown.symbols 0 = .ok g
        ∧ countdown.lower countdown.symbols 41 = .ok (g.relabel r)
        ∧ g.allocate countdown.symbols = .ok a
        ∧ (g.relabel r).allocate countdown.symbols = .ok a := by
  have hr : Function.Injective (fun l : Label => "x" ++ l) := fun l l' h => by simpa using h
  have hb : BlockGraph.build .blank stackedLabels = .ok _ := rfl
  have hg : countdown.lower countdown.symbols 0 = .ok _ := rfl
  refine ⟨hr, ⟨_, hb, ((label_names_irrelevant.1 _ hr .blank stackedLabels).2 _ hb).1⟩, ?_⟩
  refine (label_names_irrelevant.2 countdown countdown.symbols 0 41).resolve_left ?_
  rintro ⟨e, he, -⟩
  rw [hg] at he
  simp at he

end SlotColoring
