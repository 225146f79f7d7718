import Mathlib.Logic.Function.Basic
import SlotColoring.Proofs.Conflicts
import SlotColoring.Proofs.FlowEdges

/-!
# Running a program on registers in place of slots

A machine runs the nodes of a flow graph with an operand stack and an output.  A load pushes the
content of the slot's place and a store pops into it; what any other instruction does with stack
and output, and where it goes from there, is left open (`act`).  The slots are places of their own,
and an allocation puts each slot into a register.

Two machines agree while they show the same and hold the same in the slots that are live where they
are (`Agree`).  A step keeps that unless its store hits the register of another slot that is live
after it (`step_agree`).  The store of a live slot cannot, since slots that are live together have
different registers.  So a machine that leaves out the other stores agrees with the slots for ever
(`sparing_run_agree`), and one that carries them out does as long as none of them changes a live
slot's register (`registers_run_view`).
-/

namespace SlotColoring

/-- What can be seen of a machine.  It has no node once it has left the graph. -/
structure View (V O : Type*) where
  node : Option Nat
  stack : List V
  output : O
deriving DecidableEq

/-- What a program can see of a machine, and what the machine keeps in its places. -/
structure Config (P V O : Type*) where
  view : View V O
  content : P → V

/-- Where a machine keeps the slots, and which stores to a slot at a node it carries out. -/
structure Storage (P : Type*) where
  place : Slot → Option P
  writes : Nat → Slot → Bool

/-- Every slot is kept in a place of its own, and every store is carried out. -/
def Storage.slots : Storage Slot := ⟨some, fun _ _ => true⟩

namespace Allocated

/-- Every slot is kept in its register. -/
def registers (a : Allocated) : Storage Nat := ⟨a.allocation.colorOfSlot?, fun _ _ => true⟩

/-- Every slot is kept in its register, and stores to slots that are not live after them only
pop. -/
def sparing (a : Allocated) : Storage Nat :=
  ⟨a.allocation.colorOfSlot?, fun i x => x ∈ a.live.liveOut i⟩

end Allocated

/-- The node to go to from `i`, if it follows `i`. -/
def FlowGraph.enter (f : FlowGraph) (i : Nat) (next : Option Nat) : Option Nat :=
  next.filter fun j => j ∈ f.succs i

section Machine

variable {P V O : Type*} [DecidableEq P]

/-- One instruction.  There is none to carry out where the machine has left the graph, finds
nothing to pop, or has no place for the slot. -/
def Config.step (f : FlowGraph) (m : Storage P) (act : Nat → List V → O → View V O)
    (s : Config P V O) : Option (Config P V O) :=
  match s.view.node with
  | none => none
  | some i => match f.nodes[i]? with
    | none => none
    | some n => match n.reads, n.writes, s.view.stack with
      | some x, _, stack => (m.place x).map fun p =>
        ⟨⟨f.enter i (some (i + 1)), s.content p :: stack, s.view.output⟩, s.content⟩
      | none, some x, v :: stack => (m.place x).map fun p =>
        ⟨⟨f.enter i (some (i + 1)), stack, s.view.output⟩,
          if m.writes i x then Function.update s.content p v else s.content⟩
      | none, some _, [] => none
      | none, none, stack =>
        let w := act i stack s.view.output
        some ⟨{ w with node := f.enter i w.node }, s.content⟩

/-- The configuration after some steps, if the machine does not stop before. -/
def Config.run (f : FlowGraph) (m : Storage P) (act : Nat → List V → O → View V O)
    (s : Config P V O) : Nat → Option (Config P V O)
  | 0 => some s
  | k + 1 => (Config.run f m act s k).bind (Config.step f m act)

/-- At the first node, with one value in every place. -/
def Config.start (stack : List V) (output : O) (v : V) : Config P V O :=
  ⟨⟨some 0, stack, output⟩, fun _ => v⟩

end Machine

/-- Both machines show the same, and every slot that is live where they are has a register with the
slot's content. -/
structure Agree {V O : Type*} {f : FlowGraph} (live : Liveness f) (reg : Slot → Option Nat)
    (s : Config Slot V O) (r : Config Nat V O) : Prop where
  view_eq : s.view = r.view
  content : ∀ i, s.view.node = some i → ∀ x ∈ live.liveIn i,
    ∃ c, reg x = some c ∧ s.content x = r.content c

/-- What the registers have to do with the live sets. -/
structure Fits {f : FlowGraph} (live : Liveness f) (reg : Slot → Option Nat) : Prop where
  stable : ∀ i, live.Stable i
  reads_only : ∀ {i : Nat} {x : Slot}, f.reads? i = some x → f.writes? i = none
  named : ∀ {i : Nat} {x : Slot}, x ∈ InterferenceGraph.slotsAt live i → ∃ c, reg x = some c
  apart : ∀ {i : Nat} {x y : Slot}, x ∈ live.liveOut i → y ∈ live.liveOut i → x ≠ y →
    reg x ≠ reg y

/-- The store that comes next is carried out if its slot is live after it, and it leaves the
register of every other slot that is live after it as it is. -/
def Harmless {V O : Type*} {f : FlowGraph} (live : Liveness f) (m : Storage Nat)
    (s : Config Slot V O) : Prop :=
  ∀ i x v stack, s.view.node = some i → f.writes? i = some x → s.view.stack = v :: stack →
    (x ∈ live.liveOut i → m.writes i x = true)
      ∧ (m.writes i x = true → ∀ y ∈ live.liveOut i, y ≠ x → m.place y = m.place x →
          s.content y = v)

section Simulation

variable {V O : Type*} {f : FlowGraph} {live : Liveness f} {m : Storage Nat} {i j : Nat}
  {x : Slot} {act : Nat → List V → O → View V O} {s : Config Slot V O} {r : Config Nat V O}

theorem mem_succs_of_enter {next : Option Nat} (h : f.enter i next = some j) : j ∈ f.succs i := by
  obtain ⟨-, hj⟩ := Option.filter_eq_some_iff.mp h
  simpa using hj

namespace Fits

variable {reg : Slot → Option Nat}

theorem mem_liveIn (h : Fits live reg) :
    x ∈ live.liveIn i ↔ f.reads? i = some x ∨ (x ∈ live.liveOut i ∧ f.writes? i ≠ some x) := by
  rw [(h.stable i).1, Liveness.mem_nextIn, (h.stable i).2]

theorem mem_liveOut (h : Fits live reg) (hj : j ∈ f.succs i) (hx : x ∈ live.liveIn j) :
    x ∈ live.liveOut i := by
  rw [(h.stable i).2, Liveness.mem_nextOut]
  exact ⟨j, hj, hx⟩

theorem exists_reg_of_live (h : Fits live reg) (hx : x ∈ live.liveIn i) : ∃ c, reg x = some c := by
  refine h.named (i := i) ?_
  rcases h.mem_liveIn.mp hx with hr | ⟨hout, -⟩
  · simp [InterferenceGraph.slotsAt, hr]
  · simp [InterferenceGraph.slotsAt, hout]

end Fits

namespace Agree

variable {w : View V O}

theorem pass (hfit : Fits live m.place) (h : Agree live m.place s r)
    (hi : s.view.node = some i) (hw : f.writes? i = none)
    (hnode : ∀ j, w.node = some j → j ∈ f.succs i) :
    Agree live m.place ⟨w, s.content⟩ ⟨w, r.content⟩ := by
  refine ⟨rfl, fun j hj y hy => ?_⟩
  have hout := hfit.mem_liveOut (hnode j hj) hy
  exact h.content i hi y (hfit.mem_liveIn.mpr (.inr ⟨hout, by simp [hw]⟩))

/-- Past a store.  Its own slot is live after it only if it is carried out, and then both machines
hold the value; the other live slots were live before it and keep what they hold. -/
theorem store (hfit : Fits live m.place) (hsafe : Harmless live m s) (h : Agree live m.place s r)
    {v : V} {stack : List V} {c : Nat} (hi : s.view.node = some i) (hw : f.writes? i = some x)
    (hstack : s.view.stack = v :: stack) (hc : m.place x = some c)
    (hnode : ∀ j, w.node = some j → j ∈ f.succs i) :
    Agree live m.place ⟨w, Function.update s.content x v⟩
      ⟨w, if m.writes i x then Function.update r.content c v else r.content⟩ := by
  obtain ⟨hlive, hothers⟩ := hsafe i x v stack hi hw hstack
  refine ⟨rfl, fun j hj y hy => ?_⟩
  have hout := hfit.mem_liveOut (hnode j hj) hy
  by_cases hyx : y = x
  · subst hyx
    exact ⟨c, hc, by simp [hlive hout]⟩
  · have hbefore : y ∈ live.liveIn i :=
      hfit.mem_liveIn.mpr (.inr ⟨hout, by simpa [hw] using Ne.symm hyx⟩)
    obtain ⟨d, hd, hcontent⟩ := h.content i hi y hbefore
    refine ⟨d, hd, ?_⟩
    simp only [Function.update_of_ne hyx]
    split_ifs with hwrites
    · -- the store may go to the register of `y` only with what is there already
      by_cases hdc : d = c
      · rw [hdc, Function.update_self]
        exact hothers hwrites y hout hyx (by rw [hd, hc, hdc])
      · rwa [Function.update_of_ne hdc]
    · exact hcontent

end Agree

theorem step_agree (hfit : Fits live m.place) (hsafe : Harmless live m s)
    (h : Agree live m.place s r) :
    Option.Rel (Agree live m.place) (Config.step f .slots act s) (Config.step f m act r) := by
  unfold Config.step
  rw [← h.view_eq]
  rcases hi : s.view.node with _ | i
  · exact .none
  simp only
  rcases hn : f.nodes[i]? with _ | n
  · exact .none
  have hreads : f.reads? i = n.reads := by simp [FlowGraph.reads?, hn]
  have hwrites : f.writes? i = n.writes := by simp [FlowGraph.writes?, hn]
  have hnext : ∀ j, f.enter i (some (i + 1)) = some j → j ∈ f.succs i := fun _ => mem_succs_of_enter
  simp only
  rcases hr : n.reads with _ | x
  · rcases hw : n.writes with _ | x
    · exact .some (h.pass hfit hi (hwrites.trans hw) fun _ => mem_succs_of_enter)
    · rcases hstack : s.view.stack with _ | ⟨v, stack⟩
      · exact .none
      · obtain ⟨c, hc⟩ : ∃ c, m.place x = some c :=
          hfit.named (i := i) (by simp [InterferenceGraph.slotsAt, hwrites, hw])
        simp only [hc]
        exact .some (h.store hfit hsafe hi (hwrites.trans hw) hstack hc hnext)
  · obtain ⟨c, hc, hcontent⟩ := h.content i hi x (hfit.mem_liveIn.mpr (.inl (hreads.trans hr)))
    simp only [hc, Storage.slots, Option.map_some, hcontent]
    exact .some (h.pass hfit hi (hfit.reads_only (hreads.trans hr)) hnext)

theorem rel_bind {α β γ δ : Type*} {R : α → β → Prop} {S : γ → δ → Prop} {p : α → Option γ}
    {q : β → Option δ} {o : Option α} {o' : Option β} (h : Option.Rel R o o')
    (hpq : ∀ a b, o = some a → R a b → Option.Rel S (p a) (q b)) :
    Option.Rel S (o.bind p) (o'.bind q) := by
  cases h with
  | some hab => exact hpq _ _ rfl hab
  | none => exact .none

theorem run_agree (hfit : Fits live m.place) (h : Agree live m.place s r) :
    ∀ k, (∀ l < k, ∀ s', Config.run f .slots act s l = some s' → Harmless live m s') →
      Option.Rel (Agree live m.place) (Config.run f .slots act s k) (Config.run f m act r k)
  | 0, _ => .some h
  | k + 1, hsafe => by
    have ih := run_agree hfit h k fun l hl => hsafe l (hl.trans k.lt_succ_self)
    exact rel_bind ih fun s' r' hs' h' => step_agree hfit (hsafe k k.lt_succ_self s' hs') h'

theorem view_eq_of_rel {o : Option (Config Slot V O)} {o' : Option (Config Nat V O)}
    (h : Option.Rel (Agree live m.place) o o') : o.map Config.view = o'.map Config.view := by
  cases h with
  | some h => rw [Option.map_some, Option.map_some, h.view_eq]
  | none => rfl

theorem agree_start (hfit : Fits live m.place) (stack : List V) (output : O) (v : V) :
    Agree live m.place (Config.start stack output v) (Config.start stack output v) := by
  refine ⟨rfl, fun i _ x hx => ?_⟩
  obtain ⟨c, hc⟩ := hfit.exists_reg_of_live hx
  exact ⟨c, hc, rfl⟩

end Simulation

section Allocation

variable {V O : Type*} {head : Head} {events : List Event} {g : BlockGraph} {t : SymbolTable}
  {a : Allocated}

theorem Opcode.writes?_of_reads? {op : Opcode} {x : Slot} (h : op.reads? = some x) :
    op.writes? = none := by
  cases op with
  | load s => rfl
  | store s => simp [reads?] at h
  | jump c l => rfl
  | other m operands => rfl

theorem BlockGraph.writes?_of_reads? (h : BlockGraph.build head events = .ok g) {i : Nat}
    {x : Slot} (hx : g.flowGraph.reads? i = some x) : g.flowGraph.writes? i = none := by
  obtain ⟨b, hb, -, rfl⟩ := BlockGraph.exists_of_build h
  rw [hb.reads?_eq, Option.bind_eq_some_iff] at hx
  obtain ⟨op, hop, hx⟩ := hx
  rw [hb.writes?_eq, hop, Option.bind_some, Opcode.writes?_of_reads? hx]

theorem fits_of_allocate (hb : BlockGraph.build head events = .ok g)
    (ha : g.allocate t = .ok a) : Fits a.live a.allocation.colorOfSlot? := by
  obtain ⟨ig, hig, rfl⟩ := BlockGraph.allocate_ok ha
  refine ⟨g.flowGraph.stable_solved, BlockGraph.writes?_of_reads? hb, fun hx => ?_,
    InterferenceGraph.colorOfSlot?_ne hig⟩
  obtain ⟨-, -, -, c, -, hc⟩ := InterferenceGraph.exists_vertex hig hx
  exact ⟨c, hc⟩

/-- The last store is to a slot that is never read, while the other slot is still to be read. -/
def deadStore : List Event :=
  [.emit (.other "iconst_5" []), .emit (.store ⟨1, Slot.one_lt_total⟩),
    .emit (.other "iconst_6" []), .emit (.store ⟨2, Slot.two_lt_total⟩),
    .emit (.load ⟨1, Slot.one_lt_total⟩)]

/-- The variables `i` and `j`, in slots 1 and 2. -/
def deadStoreSymbols : SymbolTable :=
  ⟨[⟨"i", ⟨1, Slot.one_lt_total⟩⟩, ⟨"j", ⟨2, Slot.two_lt_total⟩⟩], by decide, by decide⟩

/-- Every instruction that names no slot pushes a value of its own. -/
def pushing (value : Nat → Nat) (i : Nat) (stack : List Nat) (output : Unit) : View Nat Unit :=
  ⟨some (i + 1), value i :: stack, output⟩

theorem exists_allocated (events : List Event) (t : SymbolTable) (p : Allocated → Prop)
    [DecidablePred p]
    (h : ((BlockGraph.build .blank events).toOption.bind fun g => (g.allocate t).toOption).any
      (fun a => decide (p a)) = true) :
    ∃ g a, BlockGraph.build .blank events = .ok g ∧ g.allocate t = .ok a ∧ p a := by
  rcases hb : BlockGraph.build .blank events with e | g
  · simp [hb, Except.toOption] at h
  rcases ha : g.allocate t with e | a
  · simp [hb, ha, Except.toOption] at h
  exact ⟨g, a, rfl, ha, by simpa [hb, ha, Except.toOption] using h⟩

/-- The slot machine and the machine that keeps the slots in their registers and leaves out the
stores to slots that are not live stay together for any number of steps, whatever the instructions
that name no slot do. -/
theorem sparing_run_agree (hb : BlockGraph.build head events = .ok g)
    (ha : g.allocate t = .ok a) (act : Nat → List V → O → View V O) (stack : List V) (output : O)
    (v : V) (k : Nat) :
    Option.Rel (Agree a.live a.allocation.colorOfSlot?)
      (Config.run a.flow .slots act (.start stack output v) k)
      (Config.run a.flow a.sparing act (.start stack output v) k) := by
  have hfit : Fits a.live a.sparing.place := fits_of_allocate hb ha
  refine run_agree hfit (agree_start hfit stack output v) k fun _ _ s _ i x u rest _ _ _ => ?_
  refine ⟨fun hx => decide_eq_true hx, fun hwrites y hy hyx hplace => ?_⟩
  exact absurd hplace (hfit.apart hy (of_decide_eq_true hwrites) hyx)

/-- Here a store to a slot that is never read shares its register with a slot that is still to be
read. -/
theorem sparing_run_agree_deadStore : ∃ g a, BlockGraph.build .blank deadStore = .ok g
    ∧ g.allocate deadStoreSymbols = .ok a
    ∧ (Config.run a.flow a.sparing (pushing id) (.start [] () 0) 5).map Config.view
        = some ⟨none, [0], ()⟩
    ∧ ∀ k, Option.Rel (Agree a.live a.allocation.colorOfSlot?)
        (Config.run a.flow .slots (pushing id) (.start [] () 0) k)
        (Config.run a.flow a.sparing (pushing id) (.start [] () 0) k) := by
  obtain ⟨g, a, hb, ha, hlast⟩ := exists_allocated deadStore deadStoreSymbols
    (fun a => (Config.run a.flow a.sparing (pushing id) (.start [] () 0) 5).map Config.view
      = some ⟨none, [0], ()⟩) (by decide +kernel)
  exact ⟨g, a, hb, ha, hlast, sparing_run_agree hb ha (pushing id) [] () 0⟩

/-- The store that comes next is to a slot that is not live after it, and changes the register of
a slot that is. -/
def Allocated.Clobbers (a : Allocated) (s : Config Slot V O) : Prop :=
  ∃ i ∈ s.view.node, ∃ x ∈ a.flow.writes? i, ∃ v ∈ s.view.stack.head?,
    x ∉ a.live.liveOut i ∧ ∃ y ∈ (a.live.liveOut i).toList,
      a.allocation.colorOfSlot? y = a.allocation.colorOfSlot? x ∧ s.content y ≠ v

instance [DecidableEq V] (a : Allocated) (s : Config Slot V O) : Decidable (a.Clobbers s) :=
  inferInstanceAs (Decidable (∃ i ∈ s.view.node, ∃ x ∈ a.flow.writes? i,
    ∃ v ∈ s.view.stack.head?, x ∉ a.live.liveOut i ∧ ∃ y ∈ (a.live.liveOut i).toList,
      a.allocation.colorOfSlot? y = a.allocation.colorOfSlot? x ∧ s.content y ≠ v))

/-- A machine that keeps the slots in their registers shows what the slot machine shows, as long as
no store to a slot that is not live changes the register of one that is. -/
theorem registers_run_view (hb : BlockGraph.build head events = .ok g)
    (ha : g.allocate t = .ok a) (act : Nat → List V → O → View V O) (stack : List V) (output : O)
    (v : V) (k : Nat)
    (hkept : ∀ l < k, ∀ s ∈ Config.run a.flow .slots act (.start stack output v) l,
      ¬ a.Clobbers s) :
    (Config.run a.flow a.registers act (.start stack output v) k).map Config.view
      = (Config.run a.flow .slots act (.start stack output v) k).map Config.view := by
  have hfit : Fits a.live a.registers.place := fits_of_allocate hb ha
  refine (view_eq_of_rel (run_agree hfit (agree_start hfit stack output v) k ?_)).symm
  intro l hl s hs i x u rest hi hx hstack
  refine ⟨fun _ => rfl, fun _ y hy hyx hplace => ?_⟩
  by_contra hne
  by_cases hlive : x ∈ a.live.liveOut i
  · exact hfit.apart hy hlive hyx hplace
  · exact hkept l hl s hs
      ⟨i, hi, x, hx, u, by simp [hstack], hlive, y, OrdSet.mem_toList.mpr hy, hplace, hne⟩

/-- The store to the slot that is never read does no harm where it stores what the register
already holds. -/
theorem registers_run_view_deadStore : ∃ g a, BlockGraph.build .blank deadStore = .ok g
    ∧ g.allocate deadStoreSymbols = .ok a
    ∧ (∀ l < 5, ∀ s ∈ Config.run a.flow .slots (pushing fun _ => 7) (.start [] () 0) l,
        ¬ a.Clobbers s)
    ∧ (Config.run a.flow a.registers (pushing fun _ => 7) (.start [] () 0) 5).map Config.view
        = (Config.run a.flow .slots (pushing fun _ => 7) (.start [] () 0) 5).map Config.view := by
  obtain ⟨g, a, hb, ha, hkept⟩ := exists_allocated deadStore deadStoreSymbols
    (fun a => ∀ l < (5 : Nat),
      ∀ s ∈ Config.run a.flow .slots (pushing fun _ => 7) (.start [] () 0) l, ¬ a.Clobbers s)
    (by decide +kernel)
  exact ⟨g, a, hb, ha, hkept, registers_run_view hb ha (pushing fun _ => 7) [] () 0 5 hkept⟩

/-- A store to a slot that is never read can change what a program does on registers. -/
theorem dead_store_shows : ¬ ∀ (head : Head) (events : List Event) (t : SymbolTable)
    (g : BlockGraph) (a : Allocated), BlockGraph.build head events = .ok g →
    g.allocate t = .ok a → ∀ (V O : Type) (act : Nat → List V → O → View V O) (stack : List V)
    (output : O) (v : V) (k : Nat),
    (Config.run a.flow a.registers act (.start stack output v) k).map Config.view
      = (Config.run a.flow .slots act (.start stack output v) k).map Config.view := by
  intro hall
  obtain ⟨g, a, hb, ha, hne⟩ := exists_allocated deadStore deadStoreSymbols
    (fun a => (Config.run a.flow a.registers (pushing id) (.start [] () 0) 5).map Config.view
      ≠ (Config.run a.flow .slots (pushing id) (.start [] () 0) 5).map Config.view)
    (by decide +kernel)
  exact hne (hall .blank _ _ g a hb ha Nat Unit (pushing id) [] () 0 5)

end Allocation

end SlotColoring
