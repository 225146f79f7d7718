import SlotColoring.Compile
import SlotColoring.Proofs.Declarations
import SlotColoring.Proofs.FreshLabels
import SlotColoring.Proofs.StackDepth
import SlotColoring.Proofs.Translation
import SlotColoring.Proofs.UndeclaredSlots

/-!
# When a program compiles

Lowering takes slots from the symbol table alone, and where a name has none it leaves the name in
the code (`Code.DrawsOn`).  So if every name has its slot, the code is there, it builds, and no
instruction names a slot that register allocation does not know.  If some name has none, that is
the error, and nothing else can go wrong (`compile_outcome`).
-/

namespace SlotColoring

section Slots

variable {t : SymbolTable} {names : List String}

/-- An instruction has its slot from the table, for one of the names, and a variable without a slot
is one of them that the table does not bind. -/
def Code.DrawsOn (t : SymbolTable) (names : List String) : Except Undeclared Event → Prop
  | .ok e => ∀ s, e.opcode?.bind Opcode.slot? = some s → ∃ x ∈ names, t.slot? x = some s
  | .error u => u.name ∈ names ∧ t.slot? u.name = none

namespace Code

@[simp]
theorem drawsOn_instruction (m : String) (operands : List String) :
    DrawsOn t names (instruction m operands) := by
  simp [DrawsOn, instruction, Event.opcode?, Opcode.slot?]

@[simp]
theorem drawsOn_jump (c : Condition) (l : Label) : DrawsOn t names (jump c l) := by
  simp [DrawsOn, jump, Event.opcode?, Opcode.slot?]

@[simp]
theorem drawsOn_label (l : Label) : DrawsOn t names (label l) := by
  simp [DrawsOn, label, Event.opcode?]

/-- Either all variables of the code have slots, or the first that has none is its error. -/
theorem events_cases : ∀ code : Code, (∃ es, code.events = .ok es)
    ∨ ∃ u, code.events = .error u ∧ .error u ∈ code
  | [] => Or.inl ⟨[], rfl⟩
  | .error u :: code => Or.inr ⟨u, rfl, by simp⟩
  | .ok e :: code => by
    rcases events_cases code with ⟨es, hes⟩ | ⟨u, hu, hmem⟩
    · exact Or.inl ⟨e :: es, by simp [events, hes]⟩
    · exact Or.inr ⟨u, by simp [events, hu], List.mem_cons_of_mem _ hmem⟩

end Code

theorem Expr.drawsOn : ∀ (e : Expr) (n : Nat), e.names ⊆ names →
    ∀ c ∈ (e.code t n).1, Code.DrawsOn t names c
  | .int _ i, n, _ => by simp [code]
  | .bool _ b, n, _ => by simp [code]
  | .var span x, n, h => by
    have hx : x ∈ names := h List.mem_cons_self
    simp only [code, List.mem_singleton, forall_eq, Code.load]
    rcases hslot : t.slot? x with _ | slot
    · exact ⟨hx, hslot⟩
    · intro s hs
      exact ⟨x, hx, hslot.trans hs⟩
  | .unary _ .neg e, n, h => by
    simp only [code, List.forall_mem_append]
    exact ⟨e.drawsOn n h, by simp⟩
  | .unary _ .not e, n, h => by
    simp only [code, List.forall_mem_append]
    exact ⟨e.drawsOn n h, by simp⟩
  | .binary _ (.arith op) l r, n, h => by
    obtain ⟨hl, hr⟩ := List.append_subset.mp h
    simp only [code, List.forall_mem_append]
    exact ⟨⟨l.drawsOn n hl, r.drawsOn _ hr⟩, by simp⟩
  | .binary _ (.compare c) l r, n, h => by
    obtain ⟨hl, hr⟩ := List.append_subset.mp h
    simp only [code, List.forall_mem_append]
    exact ⟨⟨l.drawsOn _ hl, r.drawsOn _ hr⟩, by simp⟩

theorem Stmt.drawsOn_storeCode (span : Span) (x : String) (e : Expr) (n : Nat)
    (h : x :: e.names ⊆ names) : ∀ c ∈ (storeCode t span x e n).1, Code.DrawsOn t names c := by
  obtain ⟨hx, he⟩ := List.cons_subset.mp h
  unfold storeCode
  rcases hslot : t.slot? x with _ | slot
  · simp [Code.DrawsOn, hx, hslot]
  · simp only [List.forall_mem_append, List.mem_singleton, forall_eq]
    refine ⟨e.drawsOn n he, fun s hs => ⟨x, hx, hslot.trans hs⟩⟩

mutual

theorem Stmt.drawsOn : ∀ (s : Stmt) (n : Nat), s.names ⊆ names →
    ∀ c ∈ (s.code t n).1, Code.DrawsOn t names c
  | .decl span x e, n, h => Stmt.drawsOn_storeCode span x e n h
  | .assign span x e, n, h => Stmt.drawsOn_storeCode span x e n h
  | .print _ e, n, h => by
    simp only [code, List.forall_mem_append, List.forall_mem_cons]
    exact ⟨⟨by simp, e.drawsOn n h⟩, by simp⟩
  | .ifElse _ c yes no, n, h => by
    obtain ⟨h, hno⟩ := List.append_subset.mp h
    obtain ⟨hc, hyes⟩ := List.append_subset.mp h
    have hc := c.drawsOn (t := t) (n + 2) hc
    have hyes := Stmt.drawsOnAll yes (c.code t (n + 2)).2 hyes
    have hno := Stmt.drawsOnAll no (Stmt.codeAll t yes (c.code t (n + 2)).2).2 hno
    simpa [code, List.forall_mem_append, or_imp, forall_and] using ⟨hc, hyes, hno⟩
  | .loop _ c body, n, h => by
    obtain ⟨hc, hbody⟩ := List.append_subset.mp h
    have hc := c.drawsOn (t := t) (n + 2) hc
    have hbody := Stmt.drawsOnAll body (c.code t (n + 2)).2 hbody
    simpa [code, or_imp, forall_and] using ⟨hc, hbody⟩

theorem Stmt.drawsOnAll : ∀ (ss : List Stmt) (n : Nat), Stmt.namesAll ss ⊆ names →
    ∀ c ∈ (Stmt.codeAll t ss n).1, Code.DrawsOn t names c
  | [], n, _ => by simp [codeAll]
  | s :: ss, n, h => by
    obtain ⟨hs, hss⟩ := List.append_subset.mp h
    simp only [codeAll, List.forall_mem_append]
    exact ⟨s.drawsOn n hs, Stmt.drawsOnAll ss _ hss⟩

end

theorem Program.drawsOn (p : Program) (n : Nat) : ∀ c ∈ p.code t n, Code.DrawsOn t p.names c := by
  unfold code
  rw [List.forall_mem_append]
  exact ⟨Stmt.drawsOnAll p.body n (List.Subset.refl _), by simp⟩

end Slots

section Outcome

variable {p : Program} {t : SymbolTable} {n : Nat} {g : BlockGraph} {events : List Event}
  {head : Head}

theorem BlockGraph.exists_allocate (h : BlockGraph.build head events = .ok g)
    (hslots : ∀ op ∈ emitted events, ∀ s, op.slot? = some s → ∃ x, t.slot? x = some s) :
    ∃ a, g.allocate t = .ok a := by
  rcases ha : g.allocate t with e | a
  · obtain ⟨s, ⟨i, hi⟩, hnone⟩ := BlockGraph.exists_allocate_error_iff.mp ⟨e, ha⟩
    obtain ⟨ins, hins, hs⟩ := Option.bind_eq_some_iff.mp hi
    have hop : ins.opcode ∈ emitted events := by
      rw [← (BlockGraph.finished_of_build h).opcodes]
      exact List.mem_map_of_mem (List.mem_of_getElem? hins)
    obtain ⟨x, hx⟩ := hslots ins.opcode hop s hs
    rw [SymbolTable.slot?_eq_some_iff, ← SymbolTable.name?_eq_some_iff, hnone] at hx
    exact absurd hx (by simp)
  · exact ⟨a, rfl⟩

theorem Program.slots_of_code (hcode : p.code t n = events.map .ok) :
    ∀ op ∈ emitted events, ∀ s, op.slot? = some s → ∃ x, t.slot? x = some s := by
  intro op hop s hs
  obtain ⟨e, he, heop⟩ := List.mem_filterMap.mp hop
  have hmem : .ok e ∈ p.code t n := hcode ▸ List.mem_map_of_mem he
  obtain ⟨x, -, hx⟩ := p.drawsOn n _ hmem s (by rw [heop, Option.bind_some, hs])
  exact ⟨x, hx⟩

theorem Program.lower_cases (p : Program) (t : SymbolTable) (n : Nat) :
    (∃ g, p.lower t n = .ok g)
      ∨ ∃ u, p.lower t n = .error (.undeclared u) ∧ .error u ∈ p.code t n := by
  unfold lower
  rw [p.maxStackDepth_eq]
  rcases (p.code t n).events_cases with ⟨events, hevents⟩ | ⟨u, hu, hmem⟩
  · have hclosed := Program.enclosed (Code.eq_map_of_events hevents)
    obtain ⟨g, hg⟩ := BlockGraph.exists_build
      ⟨p.source, p.className, Stmt.heightAll p.body, t.localCount⟩ hclosed.nodup hclosed.targets
    exact Or.inl ⟨g, by simp only [hevents, hg]⟩
  · exact Or.inr ⟨u, by simp only [hu], hmem⟩

theorem Program.compile_ok {c : Compiled} (h : p.compile t n = .ok c) :
    p.lower t n = .ok c.graph ∧ c.graph.allocate t = .ok c.allocated := by
  unfold compile at h
  rcases hlower : p.lower t n with e | g
  · simp [hlower] at h
  · rw [hlower] at h
    simp only [BlockGraph.compile] at h
    rcases halloc : g.allocate t with e | a
    · simp [halloc] at h
    · rw [halloc] at h
      obtain rfl := Except.ok.inj h
      exact ⟨rfl, halloc⟩

theorem Program.compile_cases (p : Program) (t : SymbolTable) (n : Nat) :
    (∃ c, p.compile t n = .ok c)
      ∨ ∃ u, p.compile t n = .error (.lowering p.className (.undeclared u))
        ∧ u.name ∈ p.names ∧ t.slot? u.name = none := by
  unfold compile
  rcases p.lower_cases t n with ⟨g, hg⟩ | ⟨u, hu, hmem⟩
  · obtain ⟨depth, events, -, hcode, hbuild⟩ := Program.lower_ok hg
    obtain ⟨a, ha⟩ := BlockGraph.exists_allocate hbuild (Program.slots_of_code hcode)
    exact Or.inl ⟨⟨g, a⟩, by simp only [hg, BlockGraph.compile, ha]⟩
  · exact Or.inr ⟨u, by simp only [hu], p.drawsOn n _ hmem⟩

/-- Everything in a compiled program is where it is looked up: the slots of its instructions in the
symbol table and the frame, the blocks at both ends of an edge, the labels of its jumps, the nodes
and vertices that nodes and vertices name.  No two neighbours share a register. -/
structure Compiled.Sound (t : SymbolTable) (c : Compiled) : Prop where
  slots : ∀ i ∈ c.graph.instructions, ∀ s, i.opcode = .load s ∨ i.opcode = .store s →
    (∃ x, t.slot? x = some s) ∧ s.index < c.graph.head.locals
  edges : ∀ x y, y ∈ c.graph.succs x →
    (∃ a ∈ c.graph.blocks, a.id = x) ∧ ∃ a ∈ c.graph.blocks, a.id = y
  targets : ∀ i ∈ c.graph.instructions, ∀ l, i.opcode.target? = some l →
    ∃ a ∈ c.graph.blocks, a.label = some l
  flow : ∀ i j, j ∈ c.allocated.flow.succs i → i < c.allocated.flow.size ∧ j < c.allocated.flow.size
  neighbors : ∀ v ∈ c.allocated.interference.vertices, ∀ w ∈ v.neighbors,
    c.allocated.interference.declares w = true
  valid : c.allocated.interference.isValidColoring = true

theorem Program.sound_of_compile {c : Compiled} (h : p.compile t n = .ok c) : c.Sound t := by
  obtain ⟨hlower, halloc⟩ := Program.compile_ok h
  obtain ⟨depth, events, -, hcode, hbuild⟩ := Program.lower_ok hlower
  have hf := BlockGraph.finished_of_build hbuild
  obtain ⟨ig, hig, hallocated⟩ := BlockGraph.allocate_ok halloc
  have hemitted : ∀ i ∈ c.graph.instructions, i.opcode ∈ emitted events := fun i hi => by
    rw [← hf.opcodes]
    exact List.mem_map_of_mem hi
  have hflow : c.allocated.flow = c.graph.flowGraph := by rw [hallocated]
  have hinterference : c.allocated.interference = ig.colored := by rw [hallocated]
  constructor
  case slots =>
    intro i hi s hs
    have hslot : i.opcode.slot? = some s := by rcases hs with hs | hs <;> rw [hs] <;> rfl
    obtain ⟨x, hx⟩ := Program.slots_of_code hcode _ (hemitted i hi) s hslot
    rw [BlockGraph.head_of_build hbuild]
    exact ⟨⟨x, hx⟩, SymbolTable.index_lt_localCount hx⟩
  case edges =>
    intro x y hy
    obtain ⟨a, ha, a', ha', hx, hy, -⟩ := (hf.adj_iff x y).mp (Digraph.mem_succs.mp hy)
    exact ⟨⟨a, ha, hx⟩, a', ha', hy⟩
  case targets =>
    intro i hi l hl
    have hplaced := (Program.enclosed hcode).targets l
      (List.mem_filterMap.mpr ⟨_, hemitted i hi, hl⟩)
    obtain ⟨a, ⟨ha, hal⟩, -⟩ := hf.existsUnique_label (mem_placedLabels.mp hplaced)
    exact ⟨a, ha, hal⟩
  case flow =>
    intro i j hj
    rw [hflow] at hj ⊢
    obtain ⟨b, hb, -, hgraph⟩ := BlockGraph.exists_of_build hbuild
    rw [hgraph] at hj ⊢
    obtain ⟨op, hop, hlt, -⟩ := hb.mem_succs_iff.mp hj
    rw [hb.size_flowGraph]
    exact ⟨(List.getElem?_eq_some_iff.mp hop).1, hlt⟩
  case neighbors =>
    intro v hv w hw
    rw [hinterference] at hv ⊢
    obtain ⟨i, -, -, hwi, -⟩ := (InterferenceGraph.mem_neighbors_colored hig hv).mp hw
    obtain ⟨u, hu, hslot, -⟩ := InterferenceGraph.exists_vertex hig
      (List.mem_append_right _ (OrdSet.mem_toList.mpr hwi))
    exact InterferenceGraph.declares_iff.mpr ⟨u, hu, hslot⟩
  case valid =>
    rw [hinterference]
    exact InterferenceGraph.isValidColoring_colored hig

/-- A program compiles exactly if all its names have slots.  If not, the error is a name without a
slot; the operand stack never underflows and is empty at the end, and the graph and the registers
of a program that compiles are sound. -/
theorem compile_outcome (p : Program) (t : SymbolTable) (n : Nat) :
    (∃ top, p.finalStack = .ok ⟨0, top⟩)
      ∧ ((∃ c, p.compile t n = .ok c) ↔ ∀ x ∈ p.names, ∃ s, t.slot? x = some s)
      ∧ (∀ e, p.compile t n = .error e → ∃ u, e = .lowering p.className (.undeclared u)
          ∧ u.name ∈ p.names ∧ t.slot? u.name = none)
      ∧ ∀ c, p.compile t n = .ok c → c.Sound t := by
  refine ⟨⟨_, p.finalStack_eq⟩, ⟨?_, fun hslots => ?_⟩, fun e he => ?_,
    fun c => Program.sound_of_compile⟩
  · rintro ⟨c, hc⟩ x hx
    obtain ⟨depth, events, -, hcode, -⟩ := Program.lower_ok (Program.compile_ok hc).1
    obtain ⟨j, lie, -⟩ := Program.liesAt hcode
    exact lie.exists_slot hx
  · rcases p.compile_cases t n with hc | ⟨u, -, hname, hnone⟩
    · exact hc
    · obtain ⟨s, hs⟩ := hslots u.name hname
      rw [hs] at hnone
      exact absurd hnone (by simp)
  · rcases p.compile_cases t n with ⟨c, hc⟩ | ⟨u, hu, hname, hnone⟩
    · rw [hc] at he
      exact absurd he (by simp)
    · rw [hu] at he
      exact ⟨u, (Except.error.inj he).symm, hname, hnone⟩

end Outcome

end SlotColoring
