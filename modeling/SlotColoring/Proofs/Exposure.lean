import Mathlib.Data.Finset.Basic
import Mathlib.Data.Finset.Lattice.Lemmas
import SlotColoring.Proofs.LiveSets
import SlotColoring.Proofs.Translation

/-!
# What is live at the start of a program

The syntax tells which variables statements may read before they assign them, and which they assign
on every way through (`Stmt.exposed`, `Stmt.killed`).  The liveness of the lowered code agrees: from
the start of a statement's code control may come to a load of a slot exactly if the slot belongs to
an exposed variable, or to none that is killed and the load can be reached from the end of the code
(`Stmt.LiesAt.exposed_or_within`, `Stmt.LiesAt.readable`).

Of a loop this is a statement about a cycle, which says nothing by itself.  So loads are counted in
the steps that it takes to come to them (`ReadWithin`): a way that goes round the loop is shorter
from the second round on, and the induction is on its length.

The two sets are also what they are meant to be: a variable is exposed exactly if one of the paths
through the statements reads it first (`Stmt.mem_exposedAll_iff`).
-/

namespace SlotColoring

mutual

/-- The variables that a statement assigns on every way through it. -/
def Stmt.killed : Stmt → Finset String
  | .decl _ x _ => {x}
  | .assign _ x _ => {x}
  | .print .. => ∅
  | .ifElse _ _ yes no => Stmt.killedAll yes ∩ Stmt.killedAll no
  | .loop .. => ∅

/-- The variables that a list of statements assigns on every way through it. -/
def Stmt.killedAll : List Stmt → Finset String
  | [] => ∅
  | s :: ss => s.killed ∪ Stmt.killedAll ss

end

mutual

/-- The variables that a statement may read before it assigns them. -/
def Stmt.exposed : Stmt → Finset String
  | .decl _ _ e => e.names.toFinset
  | .assign _ _ e => e.names.toFinset
  | .print _ e => e.names.toFinset
  | .ifElse _ c yes no => c.names.toFinset ∪ Stmt.exposedAll yes ∪ Stmt.exposedAll no
  | .loop _ c body => c.names.toFinset ∪ Stmt.exposedAll body

/-- The variables that a list of statements may read before it assigns them. -/
def Stmt.exposedAll : List Stmt → Finset String
  | [] => ∅
  | s :: ss => s.exposed ∪ (Stmt.exposedAll ss \ s.killed)

end

section Slots

/-- The slot is that of one of the names. -/
def SymbolTable.SlotAmong (t : SymbolTable) (names : Finset String) (s : Slot) : Prop :=
  ∃ x ∈ names, t.slot? x = some s

namespace SymbolTable

variable {t : SymbolTable} {A B : Finset String} {s : Slot}

theorem eq_of_slot?_eq {x y : String} (hx : t.slot? x = some s) (hy : t.slot? y = some s) :
    x = y := by
  rw [slot?_eq_some_iff] at hx hy
  exact (Binding.mk.inj (eq_of_slot_eq t.ascending hx hy rfl)).1

theorem slotAmong_empty : ¬ t.SlotAmong ∅ s := by
  simp [SlotAmong]

theorem slotAmong_singleton {x : String} : t.SlotAmong {x} s ↔ t.slot? x = some s := by
  simp [SlotAmong]

theorem slotAmong_union : t.SlotAmong (A ∪ B) s ↔ t.SlotAmong A s ∨ t.SlotAmong B s := by
  simp only [SlotAmong, Finset.mem_union, or_and_right, exists_or]

/-- No two names share a slot, so slots go with the operations on names. -/
theorem slotAmong_inter : t.SlotAmong (A ∩ B) s ↔ t.SlotAmong A s ∧ t.SlotAmong B s := by
  refine ⟨fun ⟨x, hx, hs⟩ => ?_, fun ⟨⟨x, hx, hs⟩, y, hy, hs'⟩ => ?_⟩
  · obtain ⟨hA, hB⟩ := Finset.mem_inter.mp hx
    exact ⟨⟨x, hA, hs⟩, x, hB, hs⟩
  · rw [eq_of_slot?_eq hs' hs] at hy
    exact ⟨x, Finset.mem_inter.mpr ⟨hx, hy⟩, hs⟩

theorem slotAmong_sdiff : t.SlotAmong (A \ B) s ↔ t.SlotAmong A s ∧ ¬ t.SlotAmong B s := by
  refine ⟨fun ⟨x, hx, hs⟩ => ?_, fun ⟨⟨x, hx, hs⟩, hB⟩ => ?_⟩
  · obtain ⟨hA, hB⟩ := Finset.mem_sdiff.mp hx
    refine ⟨⟨x, hA, hs⟩, fun ⟨y, hy, hs'⟩ => hB ?_⟩
    rwa [← eq_of_slot?_eq hs' hs]
  · exact ⟨x, Finset.mem_sdiff.mpr ⟨hx, fun hxB => hB ⟨x, hxB, hs⟩⟩, hs⟩

end SymbolTable

end Slots

section Steps

variable {events : List Event} {x : Slot} {Q : Nat → Prop} {i : Nat}

/-- The `i`-th instruction loads the slot, or it does not store it and control may pass from there
to an instruction at which `Q` holds. -/
def ReadOrPass (events : List Event) (x : Slot) (Q : Nat → Prop) (i : Nat) : Prop :=
  ∃ op, (emitted events)[i]? = some op
    ∧ (op.reads? = some x ∨ (op.writes? ≠ some x ∧ ∃ j, Follows events i j ∧ Q j))

/-- Fewer than `n` steps from the `i`-th instruction there may be a load of the slot, with no store
of it on the way. -/
def ReadWithin (events : List Event) (x : Slot) : Nat → Nat → Prop
  | 0 => fun _ => False
  | n + 1 => ReadOrPass events x (ReadWithin events x n)

/-- From the `i`-th instruction control may come to a load of the slot before any store of it. -/
def Readable (events : List Event) (x : Slot) (i : Nat) : Prop := ∃ n, ReadWithin events x n i

theorem ReadOrPass.mono {Q' : Nat → Prop} (h : ReadOrPass events x Q i) (hQ : ∀ j, Q j → Q' j) :
    ReadOrPass events x Q' i := by
  obtain ⟨op, hop, hread | ⟨hwrite, j, hj, hjQ⟩⟩ := h
  · exact ⟨op, hop, Or.inl hread⟩
  · exact ⟨op, hop, Or.inr ⟨hwrite, j, hj, hQ j hjQ⟩⟩

theorem ReadOrPass.lt (h : ReadOrPass events x Q i) : i < (emitted events).length := by
  obtain ⟨op, hop, -⟩ := h
  exact (List.getElem?_eq_some_iff.mp hop).1

theorem ReadWithin.lt : ∀ {n i : Nat}, ReadWithin events x n i → i < (emitted events).length
  | _ + 1, _, h => ReadOrPass.lt h

theorem ReadWithin.succ : ∀ {n i : Nat}, ReadWithin events x n i → ReadWithin events x (n + 1) i
  | _ + 1, _, h => ReadOrPass.mono h fun _ => ReadWithin.succ

theorem ReadWithin.step {n : Nat} (h : ReadWithin events x n i) :
    ReadOrPass events x (ReadWithin events x n) i := h.succ

theorem Readable.lt (h : Readable events x i) : i < (emitted events).length := h.choose_spec.lt

theorem ReadOrPass.readable (h : ReadOrPass events x (Readable events x) i) :
    Readable events x i := by
  obtain ⟨op, hop, hread | ⟨hwrite, j, hj, n, hn⟩⟩ := h
  · exact ⟨1, op, hop, Or.inl hread⟩
  · exact ⟨n + 1, op, hop, Or.inr ⟨hwrite, j, hj, hn⟩⟩

variable (hQ : ∀ j, Q j → j < (emitted events).length)
include hQ

theorem readOrPass_iff {op : Opcode} (hop : (emitted events)[i]? = some op) :
    ReadOrPass events x Q i ↔ op.reads? = some x ∨ (op.writes? ≠ some x
      ∧ ((op.isGoto = false ∧ Q (i + 1))
        ∨ ∃ l j, op.target? = some l ∧ PlacedAt events l j ∧ Q j)) := by
  have hfollows : (∃ j, Follows events i j ∧ Q j) ↔
      (op.isGoto = false ∧ Q (i + 1)) ∨ ∃ l j, op.target? = some l ∧ PlacedAt events l j ∧ Q j := by
    constructor
    · rintro ⟨j, ⟨op', hop', -, ⟨rfl, hgoto⟩ | ⟨l, hl, hplaced⟩⟩, hj⟩
      · obtain rfl := Option.some.inj (hop.symm.trans hop')
        exact Or.inl ⟨hgoto, hj⟩
      · obtain rfl := Option.some.inj (hop.symm.trans hop')
        exact Or.inr ⟨l, j, hl, hplaced, hj⟩
    · rintro (⟨hgoto, hj⟩ | ⟨l, j, hl, hplaced, hj⟩)
      · exact ⟨i + 1, ⟨op, hop, hQ _ hj, Or.inl ⟨rfl, hgoto⟩⟩, hj⟩
      · exact ⟨j, ⟨op, hop, hQ _ hj, Or.inr ⟨l, hl, hplaced⟩⟩, hj⟩
  simp only [ReadOrPass, hop, Option.some.injEq, exists_eq_left', hfollows]

theorem readOrPass_other {m : String} {operands : List String}
    (hop : (emitted events)[i]? = some (.other m operands)) :
    ReadOrPass events x Q i ↔ Q (i + 1) := by
  simp [readOrPass_iff hQ hop, Opcode.reads?, Opcode.writes?, Opcode.isGoto, Opcode.target?]

theorem readOrPass_load {s : Slot} (hop : (emitted events)[i]? = some (.load s)) :
    ReadOrPass events x Q i ↔ s = x ∨ Q (i + 1) := by
  simp [readOrPass_iff hQ hop, Opcode.reads?, Opcode.writes?, Opcode.isGoto, Opcode.target?]

theorem readOrPass_store {s : Slot} (hop : (emitted events)[i]? = some (.store s)) :
    ReadOrPass events x Q i ↔ s ≠ x ∧ Q (i + 1) := by
  simp [readOrPass_iff hQ hop, Opcode.reads?, Opcode.writes?, Opcode.isGoto, Opcode.target?]

variable (once : PlacedOnce events) {l : Label} {k : Nat} (hl : PlacedAt events l k)
include once hl

theorem readOrPass_jump {c : Condition} (hop : (emitted events)[i]? = some (.jump c l)) :
    ReadOrPass events x Q i ↔ (c ≠ .always ∧ Q (i + 1)) ∨ Q k := by
  have htarget : (∃ j, PlacedAt events l j ∧ Q j) ↔ Q k :=
    ⟨fun ⟨j, hj, hjQ⟩ => once l j k hj hl ▸ hjQ, fun h => ⟨k, hl, h⟩⟩
  have hgoto : (Opcode.jump c l).isGoto = false ↔ c ≠ .always := by
    cases c <;> simp [Opcode.isGoto]
  simp [readOrPass_iff hQ hop, Opcode.reads?, Opcode.writes?, hgoto, Opcode.target?, htarget]

end Steps

section Code

variable {events : List Event} {t : SymbolTable} {x : Slot}

/-- A way from the start of an expression's code to a load ends inside it or leads through it. -/
theorem Expr.LiesAt.named_or_within (once : PlacedOnce events) {e : Expr} {i j n : Nat}
    (h : e.LiesAt events t i j) :
    ReadWithin events x n i → t.SlotAmong e.names.toFinset x ∨ ReadWithin events x n j := by
  have hlt : ∀ j, ReadWithin events x n j → j < (emitted events).length := fun _ => ReadWithin.lt
  induction h with
  | int op => exact fun hi => Or.inr ((readOrPass_other hlt op).mp hi.step)
  | bool op => exact fun hi => Or.inr ((readOrPass_other hlt op).mp hi.step)
  | @var _ _ y s slot op =>
    intro hi
    rcases (readOrPass_load hlt op).mp hi.step with rfl | hnext
    · exact Or.inl ⟨y, by simp [names], slot⟩
    · exact Or.inr hnext
  | neg operand op ih =>
    exact fun hi => (ih hi).imp id fun hm => (readOrPass_other hlt op).mp hm.step
  | not operand one op ih =>
    intro hi
    refine (ih hi).imp id fun hm => ?_
    have hone := (readOrPass_other hlt one).mp hm.step
    exact (readOrPass_other hlt op).mp hone.step
  | arith left right op ihl ihr =>
    intro hi
    rw [names, List.toFinset_append, SymbolTable.slotAmong_union, or_assoc]
    refine (ihl hi).imp id fun hm => (ihr hm).imp id fun hk => ?_
    exact (readOrPass_other hlt op).mp hk.step
  | compare left right test zero skip one yes_at done_at ihl ihr =>
    intro hi
    rw [names, List.toFinset_append, SymbolTable.slotAmong_union, or_assoc]
    refine (ihl hi).imp id fun hm => (ihr hm).imp id fun hk => ?_
    rcases (readOrPass_jump hlt once yes_at test).mp hk.step with ⟨-, hno⟩ | hyes
    · have hskip := (readOrPass_other hlt zero).mp hno.step
      exact ((readOrPass_jump hlt once done_at skip).mp hskip.step).resolve_left (by simp)
    · exact (readOrPass_other hlt one).mp hyes.step

theorem Expr.LiesAt.readable_iff (once : PlacedOnce events) {e : Expr} {i j : Nat}
    (h : e.LiesAt events t i j) :
    Readable events x i ↔ t.SlotAmong e.names.toFinset x ∨ Readable events x j := by
  have hlt : ∀ j, Readable events x j → j < (emitted events).length := fun _ => Readable.lt
  refine ⟨fun ⟨n, hi⟩ => (h.named_or_within once hi).imp id fun hj => ⟨n, hj⟩, ?_⟩
  induction h with
  | int op =>
    rintro (⟨y, hy, -⟩ | hj)
    · simp [names] at hy
    · exact ((readOrPass_other hlt op).mpr hj).readable
  | bool op =>
    rintro (⟨y, hy, -⟩ | hj)
    · simp [names] at hy
    · exact ((readOrPass_other hlt op).mpr hj).readable
  | @var _ _ y s slot op =>
    intro h
    refine ((readOrPass_load hlt op).mpr (h.imp ?_ id)).readable
    rintro ⟨z, hz, hslot⟩
    obtain rfl : z = y := by simpa [names] using hz
    exact Option.some.inj (slot.symm.trans hslot)
  | neg operand op ih =>
    refine fun h => ih (h.imp id fun hj => ?_)
    exact ((readOrPass_other hlt op).mpr hj).readable
  | not operand one op ih =>
    refine fun h => ih (h.imp id fun hj => ?_)
    have hop := ((readOrPass_other hlt op).mpr hj).readable
    exact ((readOrPass_other hlt one).mpr hop).readable
  | arith left right op ihl ihr =>
    rw [names, List.toFinset_append, SymbolTable.slotAmong_union, or_assoc]
    refine fun h => ihl (h.imp id fun h => ihr (h.imp id fun hj => ?_))
    exact ((readOrPass_other hlt op).mpr hj).readable
  | compare left right test zero skip one yes_at done_at ihl ihr =>
    rw [names, List.toFinset_append, SymbolTable.slotAmong_union, or_assoc]
    refine fun h => ihl (h.imp id fun h => ihr (h.imp id fun hj => ?_))
    have hone := ((readOrPass_other hlt one).mpr hj).readable
    exact ((readOrPass_jump hlt once yes_at test).mpr (Or.inr hone)).readable

/-- What an assignment does: the slot must not be the one that is written. -/
theorem Expr.LiesAt.stored_or_within (once : PlacedOnce events) {e : Expr} {i m n : Nat}
    {y : String} {s : Slot} (slot : t.slot? y = some s) (value : e.LiesAt events t i m)
    (op : (emitted events)[m]? = some (.store s)) (hi : ReadWithin events x n i) :
    t.SlotAmong e.names.toFinset x ∨ (¬ t.SlotAmong {y} x ∧ ReadWithin events x n (m + 1)) := by
  refine (value.named_or_within once hi).imp id fun hm => ?_
  obtain ⟨hne, hnext⟩ := (readOrPass_store (fun _ => ReadWithin.lt) op).mp hm.step
  refine ⟨fun hx => hne ?_, hnext⟩
  exact Option.some.inj (slot.symm.trans (SymbolTable.slotAmong_singleton.mp hx))

theorem Expr.LiesAt.readable_store (once : PlacedOnce events) {e : Expr} {i m : Nat}
    {y : String} {s : Slot} (slot : t.slot? y = some s) (value : e.LiesAt events t i m)
    (op : (emitted events)[m]? = some (.store s)) (h : t.SlotAmong e.names.toFinset x
      ∨ (¬ t.SlotAmong {y} x ∧ Readable events x (m + 1))) : Readable events x i := by
  refine (value.readable_iff once).mpr (h.imp id fun ⟨hx, hnext⟩ => ?_)
  refine ((readOrPass_store (fun _ => Readable.lt) op).mpr ⟨fun hs => hx ?_, hnext⟩).readable
  rw [SymbolTable.slotAmong_singleton, slot, hs]

mutual

/-- A way from the start of a statement's code to a load ends inside it or leads through it. -/
theorem Stmt.LiesAt.exposed_or_within (once : PlacedOnce events) : ∀ {s : Stmt} {i j : Nat},
    s.LiesAt events t i j →
    ∀ {n : Nat}, ReadWithin events x n i →
      t.SlotAmong s.exposed x ∨ (¬ t.SlotAmong s.killed x ∧ ReadWithin events x n j)
  | _, _, _, .decl slot value op, n, hi => by
    rw [Stmt.exposed, Stmt.killed]
    exact value.stored_or_within once slot op hi
  | _, _, _, .assign slot value op, n, hi => by
    rw [Stmt.exposed, Stmt.killed]
    exact value.stored_or_within once slot op hi
  | _, _, _, .print stream value op, n, hi => by
    have hlt : ∀ j, ReadWithin events x n j → j < (emitted events).length := fun _ => ReadWithin.lt
    have hvalue := (readOrPass_other hlt stream).mp hi.step
    rw [Stmt.exposed, Stmt.killed]
    refine (value.named_or_within once hvalue).imp id fun hm => ⟨SymbolTable.slotAmong_empty, ?_⟩
    exact (readOrPass_other hlt op).mp hm.step
  | _, _, _, .ifElse cond test yes_lie skip no_lie otherwise_at done_at, n, hi => by
    have hlt : ∀ j, ReadWithin events x n j → j < (emitted events).length := fun _ => ReadWithin.lt
    rw [Stmt.exposed, Stmt.killed, SymbolTable.slotAmong_union, SymbolTable.slotAmong_union,
      SymbolTable.slotAmong_inter, not_and_or]
    rcases cond.named_or_within once hi with hc | hm
    · exact Or.inl (Or.inl (Or.inl hc))
    · rcases (readOrPass_jump hlt once otherwise_at test).mp hm.step with ⟨-, hyes⟩ | hno
      · rcases yes_lie.exposed_or_within once hyes with hx | ⟨hx, hk⟩
        · exact Or.inl (Or.inl (Or.inr hx))
        · have hj := (readOrPass_jump hlt once done_at skip).mp hk.step
          exact Or.inr ⟨Or.inl hx, hj.resolve_left (by simp)⟩
      · rcases no_lie.exposed_or_within once hno with hx | ⟨hx, hj⟩
        · exact Or.inl (Or.inr hx)
        · exact Or.inr ⟨Or.inr hx, hj⟩
  | _, _, _, .loop again_at cond test body_lie back done_at, n, hi => by
    rw [Stmt.exposed, Stmt.killed, SymbolTable.slotAmong_union]
    -- each round takes a step at least, so the rest of the way is shorter after it
    induction n with
    | zero => exact absurd hi id
    | succ n ih =>
      have hlt : ∀ j, ReadWithin events x n j → j < (emitted events).length :=
        fun _ => ReadWithin.lt
      rcases cond.named_or_within once hi with hc | hm
      · exact Or.inl (Or.inl hc)
      · rcases (readOrPass_jump hlt once done_at test).mp hm with ⟨-, hbody⟩ | hdone
        · rcases body_lie.exposed_or_within once hbody with hx | ⟨-, hk⟩
          · exact Or.inl (Or.inr hx)
          · have hround := (readOrPass_jump hlt once again_at back).mp hk.step
            exact (ih (hround.resolve_left (by simp))).imp id fun h => ⟨h.1, h.2.succ⟩
        · exact Or.inr ⟨SymbolTable.slotAmong_empty, hdone.succ⟩

theorem Stmt.AllLieAt.exposed_or_within (once : PlacedOnce events) : ∀ {ss : List Stmt} {i j : Nat},
    Stmt.AllLieAt events t i ss j → ∀ {n : Nat}, ReadWithin events x n i →
      t.SlotAmong (Stmt.exposedAll ss) x
        ∨ (¬ t.SlotAmong (Stmt.killedAll ss) x ∧ ReadWithin events x n j)
  | _, _, _, .nil, n, hi => Or.inr ⟨SymbolTable.slotAmong_empty, hi⟩
  | _, _, _, .cons first rest, n, hi => by
    rw [Stmt.exposedAll, Stmt.killedAll, SymbolTable.slotAmong_union, SymbolTable.slotAmong_sdiff,
      SymbolTable.slotAmong_union, not_or]
    rcases first.exposed_or_within once hi with hx | ⟨hx, hm⟩
    · exact Or.inl (Or.inl hx)
    · rcases rest.exposed_or_within once hm with hx' | ⟨hx', hj⟩
      · exact Or.inl (Or.inr ⟨hx', hx⟩)
      · exact Or.inr ⟨⟨hx, hx'⟩, hj⟩

end

mutual

theorem Stmt.LiesAt.readable (once : PlacedOnce events) : ∀ {s : Stmt} {i j : Nat},
    s.LiesAt events t i j →
    (t.SlotAmong s.exposed x ∨ (¬ t.SlotAmong s.killed x ∧ Readable events x j)) →
    Readable events x i
  | _, _, _, .decl slot value op, h => by
    rw [Stmt.exposed, Stmt.killed] at h
    exact value.readable_store once slot op h
  | _, _, _, .assign slot value op, h => by
    rw [Stmt.exposed, Stmt.killed] at h
    exact value.readable_store once slot op h
  | _, _, _, .print stream value op, h => by
    have hlt : ∀ j, Readable events x j → j < (emitted events).length := fun _ => Readable.lt
    rw [Stmt.exposed, Stmt.killed] at h
    refine ((readOrPass_other hlt stream).mpr ((value.readable_iff once).mpr ?_)).readable
    exact h.imp id fun hj => ((readOrPass_other hlt op).mpr hj.2).readable
  | _, _, _, .ifElse cond test yes_lie skip no_lie otherwise_at done_at, h => by
    have hlt : ∀ j, Readable events x j → j < (emitted events).length := fun _ => Readable.lt
    rw [Stmt.exposed, Stmt.killed, SymbolTable.slotAmong_union, SymbolTable.slotAmong_union,
      SymbolTable.slotAmong_inter, not_and_or] at h
    have htest := readOrPass_jump (x := x) hlt once otherwise_at test
    refine (cond.readable_iff once).mpr ?_
    rcases h with ((hc | hx) | hx) | ⟨hx | hx, hj⟩
    · exact Or.inl hc
    · exact Or.inr (htest.mpr (Or.inl ⟨by simp, yes_lie.readable once (Or.inl hx)⟩)).readable
    · exact Or.inr (htest.mpr (Or.inr (no_lie.readable once (Or.inl hx)))).readable
    · have hk := ((readOrPass_jump hlt once done_at skip).mpr (Or.inr hj)).readable
      have hyes := yes_lie.readable once (Or.inr ⟨hx, hk⟩)
      exact Or.inr (htest.mpr (Or.inl ⟨by simp, hyes⟩)).readable
    · exact Or.inr (htest.mpr (Or.inr (no_lie.readable once (Or.inr ⟨hx, hj⟩)))).readable
  | _, _, _, .loop again_at cond test body_lie back done_at, h => by
    have hlt : ∀ j, Readable events x j → j < (emitted events).length := fun _ => Readable.lt
    rw [Stmt.exposed, Stmt.killed, SymbolTable.slotAmong_union] at h
    refine (cond.readable_iff once).mpr ?_
    rcases h with (hc | hx) | ⟨-, hj⟩
    · exact Or.inl hc
    · have hbody := body_lie.readable once (Or.inl hx)
      exact Or.inr ((readOrPass_jump hlt once done_at test).mpr (Or.inl ⟨by simp, hbody⟩)).readable
    · exact Or.inr ((readOrPass_jump hlt once done_at test).mpr (Or.inr hj)).readable

theorem Stmt.AllLieAt.readable (once : PlacedOnce events) : ∀ {ss : List Stmt} {i j : Nat},
    Stmt.AllLieAt events t i ss j → (t.SlotAmong (Stmt.exposedAll ss) x
      ∨ (¬ t.SlotAmong (Stmt.killedAll ss) x ∧ Readable events x j)) → Readable events x i
  | _, _, _, .nil, h => by
    rcases h with hx | ⟨-, hj⟩
    · exact absurd hx SymbolTable.slotAmong_empty
    · exact hj
  | _, _, _, .cons first rest, h => by
    rw [Stmt.exposedAll, Stmt.killedAll, SymbolTable.slotAmong_union, SymbolTable.slotAmong_sdiff,
      SymbolTable.slotAmong_union, not_or] at h
    refine first.readable once ?_
    rcases h with (hx | ⟨hx', hx⟩) | ⟨⟨hx, hx'⟩, hj⟩
    · exact Or.inl hx
    · exact Or.inr ⟨hx, rest.readable once (Or.inl hx')⟩
    · exact Or.inr ⟨hx, rest.readable once (Or.inr ⟨hx', hj⟩)⟩

end

end Code

section Paths

variable {x : String}

/-- A variable is read or written. -/
inductive Access where
  | read (x : String)
  | write (x : String)
deriving DecidableEq

/-- The reads of an expression, from left to right. -/
def Expr.reads (e : Expr) : List Access := e.names.map .read

/-- The variable is read, and not written before that. -/
def ReadsFirst (x : String) : List Access → Prop
  | [] => False
  | .read y :: as => y = x ∨ ReadsFirst x as
  | .write y :: as => y ≠ x ∧ ReadsFirst x as

mutual

/-- What happens to the variables on one of the ways through a statement.  Either branch may be
taken, and a loop may be left or gone round at each test. -/
inductive Stmt.Path : Stmt → List Access → Prop
  | decl {span : Span} {x : String} {e : Expr} :
      Stmt.Path (.decl span x e) (e.reads ++ [.write x])
  | assign {span : Span} {x : String} {e : Expr} :
      Stmt.Path (.assign span x e) (e.reads ++ [.write x])
  | print {span : Span} {e : Expr} : Stmt.Path (.print span e) e.reads
  | yes {span : Span} {c : Expr} {yes no : List Stmt} {as : List Access} :
      Stmt.PathAll yes as → Stmt.Path (.ifElse span c yes no) (c.reads ++ as)
  | no {span : Span} {c : Expr} {yes no : List Stmt} {as : List Access} :
      Stmt.PathAll no as → Stmt.Path (.ifElse span c yes no) (c.reads ++ as)
  | leave {span : Span} {c : Expr} {body : List Stmt} : Stmt.Path (.loop span c body) c.reads
  | again {span : Span} {c : Expr} {body : List Stmt} {as bs : List Access} :
      Stmt.PathAll body as → Stmt.Path (.loop span c body) bs →
      Stmt.Path (.loop span c body) (c.reads ++ (as ++ bs))

/-- What happens to the variables on one of the ways through a list of statements. -/
inductive Stmt.PathAll : List Stmt → List Access → Prop
  | nil : Stmt.PathAll [] []
  | cons {s : Stmt} {ss : List Stmt} {as bs : List Access} :
      Stmt.Path s as → Stmt.PathAll ss bs → Stmt.PathAll (s :: ss) (as ++ bs)

end

theorem readsFirst_append {bs : List Access} : ∀ {as : List Access},
    ReadsFirst x (as ++ bs) ↔ ReadsFirst x as ∨ (Access.write x ∉ as ∧ ReadsFirst x bs)
  | [] => by simp [ReadsFirst]
  | .read y :: as => by simp [ReadsFirst, readsFirst_append, or_assoc]
  | .write y :: as => by
    simp only [List.cons_append, ReadsFirst, readsFirst_append, List.mem_cons, Access.write.injEq,
      not_or, eq_comm (a := x)]
    tauto

@[simp]
theorem Expr.write_not_mem_reads {e : Expr} : Access.write x ∉ e.reads := by
  simp [reads]

@[simp]
theorem Expr.readsFirst_reads {e : Expr} : ReadsFirst x e.reads ↔ x ∈ e.names := by
  rw [reads]
  induction e.names with
  | nil => simp [ReadsFirst]
  | cons y ys ih => simp [ReadsFirst, ih, eq_comm]

theorem Expr.readsFirst_reads_append {e : Expr} {as : List Access} :
    ReadsFirst x (e.reads ++ as) ↔ x ∈ e.names ∨ ReadsFirst x as := by
  simp [readsFirst_append]

mutual

/-- What a path reads first is exposed, and what it leaves alone is not killed. -/
theorem Stmt.Path.sound : ∀ {s : Stmt} {as : List Access}, s.Path as →
    (ReadsFirst x as → x ∈ s.exposed) ∧ (Access.write x ∉ as → x ∉ s.killed)
  | _, _, .decl => by simp [Stmt.exposed, Stmt.killed, Expr.readsFirst_reads_append, ReadsFirst]
  | _, _, .assign => by simp [Stmt.exposed, Stmt.killed, Expr.readsFirst_reads_append, ReadsFirst]
  | _, _, .print => by simp [Stmt.exposed, Stmt.killed]
  | _, _, .yes path => by
    have := path.sound
    simp only [Stmt.exposed, Stmt.killed, Expr.readsFirst_reads_append, List.mem_append,
      Finset.mem_union, Finset.mem_inter, List.mem_toFinset]
    tauto
  | _, _, .no path => by
    have := path.sound
    simp only [Stmt.exposed, Stmt.killed, Expr.readsFirst_reads_append, List.mem_append,
      Finset.mem_union, Finset.mem_inter, List.mem_toFinset]
    tauto
  | _, _, .leave => by simp +contextual [Stmt.exposed, Stmt.killed]
  | _, _, .again path rest => by
    have := path.sound
    have hrest := rest.sound.1
    simp only [Stmt.exposed, Stmt.killed, Expr.readsFirst_reads, readsFirst_append,
      Finset.mem_union, List.mem_toFinset, Finset.notMem_empty, not_false_eq_true, implies_true,
      and_true] at hrest ⊢
    tauto

theorem Stmt.PathAll.sound : ∀ {ss : List Stmt} {as : List Access}, Stmt.PathAll ss as →
    (ReadsFirst x as → x ∈ Stmt.exposedAll ss) ∧ (Access.write x ∉ as → x ∉ Stmt.killedAll ss)
  | _, _, .nil => by simp [Stmt.killedAll, ReadsFirst]
  | _, _, .cons path rest => by
    have := path.sound
    have := rest.sound
    simp only [Stmt.exposedAll, Stmt.killedAll, readsFirst_append, List.mem_append,
      Finset.mem_union, Finset.mem_sdiff]
    tauto

end

mutual

theorem Stmt.exists_path : ∀ s : Stmt, ∃ as, s.Path as
  | .decl .. => ⟨_, .decl⟩
  | .assign .. => ⟨_, .assign⟩
  | .print .. => ⟨_, .print⟩
  | .ifElse _ _ yes _ => by
    obtain ⟨as, path⟩ := Stmt.exists_pathAll yes
    exact ⟨_, .yes path⟩
  | .loop .. => ⟨_, .leave⟩

theorem Stmt.exists_pathAll : ∀ ss : List Stmt, ∃ as, Stmt.PathAll ss as
  | [] => ⟨_, .nil⟩
  | s :: ss => by
    obtain ⟨as, path⟩ := s.exists_path
    obtain ⟨bs, rest⟩ := Stmt.exists_pathAll ss
    exact ⟨_, .cons path rest⟩

end

mutual

theorem Stmt.exists_path_untouched : ∀ s : Stmt, x ∉ s.killed →
    ∃ as, s.Path as ∧ Access.write x ∉ as
  | .decl .., hx => ⟨_, .decl, by simpa [Stmt.killed] using hx⟩
  | .assign .., hx => ⟨_, .assign, by simpa [Stmt.killed] using hx⟩
  | .print .., _ => ⟨_, .print, by simp⟩
  | .ifElse _ _ yes no, hx => by
    rw [Stmt.killed, Finset.mem_inter, not_and_or] at hx
    rcases hx with hx | hx
    · obtain ⟨as, path, has⟩ := Stmt.exists_pathAll_untouched yes hx
      exact ⟨_, .yes path, by simp [has]⟩
    · obtain ⟨as, path, has⟩ := Stmt.exists_pathAll_untouched no hx
      exact ⟨_, .no path, by simp [has]⟩
  | .loop .., _ => ⟨_, .leave, by simp⟩

theorem Stmt.exists_pathAll_untouched : ∀ ss : List Stmt, x ∉ Stmt.killedAll ss →
    ∃ as, Stmt.PathAll ss as ∧ Access.write x ∉ as
  | [], _ => ⟨_, .nil, by simp⟩
  | s :: ss, hx => by
    rw [Stmt.killedAll, Finset.mem_union, not_or] at hx
    obtain ⟨as, path, has⟩ := s.exists_path_untouched hx.1
    obtain ⟨bs, rest, hbs⟩ := Stmt.exists_pathAll_untouched ss hx.2
    exact ⟨_, .cons path rest, by simp [has, hbs]⟩

end

mutual

theorem Stmt.exists_path_readsFirst : ∀ s : Stmt, x ∈ s.exposed →
    ∃ as, s.Path as ∧ ReadsFirst x as
  | .decl .., hx => ⟨_, .decl, Expr.readsFirst_reads_append.mpr (Or.inl (List.mem_toFinset.mp hx))⟩
  | .assign .., hx =>
    ⟨_, .assign, Expr.readsFirst_reads_append.mpr (Or.inl (List.mem_toFinset.mp hx))⟩
  | .print .., hx => ⟨_, .print, Expr.readsFirst_reads.mpr (List.mem_toFinset.mp hx)⟩
  | .ifElse _ c yes no, hx => by
    rw [Stmt.exposed, Finset.mem_union, Finset.mem_union, List.mem_toFinset] at hx
    rcases hx with (hc | hx) | hx
    · obtain ⟨as, path⟩ := Stmt.exists_pathAll yes
      exact ⟨_, .yes path, Expr.readsFirst_reads_append.mpr (Or.inl hc)⟩
    · obtain ⟨as, path, has⟩ := Stmt.exists_pathAll_readsFirst yes hx
      exact ⟨_, .yes path, Expr.readsFirst_reads_append.mpr (Or.inr has)⟩
    · obtain ⟨as, path, has⟩ := Stmt.exists_pathAll_readsFirst no hx
      exact ⟨_, .no path, Expr.readsFirst_reads_append.mpr (Or.inr has)⟩
  | .loop _ c body, hx => by
    rw [Stmt.exposed, Finset.mem_union, List.mem_toFinset] at hx
    rcases hx with hc | hx
    · exact ⟨_, .leave, Expr.readsFirst_reads.mpr hc⟩
    · -- one round is enough to come to the read
      obtain ⟨as, path, has⟩ := Stmt.exists_pathAll_readsFirst body hx
      exact ⟨_, .again path .leave,
        Expr.readsFirst_reads_append.mpr (Or.inr (readsFirst_append.mpr (Or.inl has)))⟩

theorem Stmt.exists_pathAll_readsFirst : ∀ ss : List Stmt, x ∈ Stmt.exposedAll ss →
    ∃ as, Stmt.PathAll ss as ∧ ReadsFirst x as
  | [], hx => by simp [Stmt.exposedAll] at hx
  | s :: ss, hx => by
    rw [Stmt.exposedAll, Finset.mem_union, Finset.mem_sdiff] at hx
    rcases hx with hx | ⟨hx, hkilled⟩
    · obtain ⟨as, path, has⟩ := s.exists_path_readsFirst hx
      obtain ⟨bs, rest⟩ := Stmt.exists_pathAll ss
      exact ⟨_, .cons path rest, readsFirst_append.mpr (Or.inl has)⟩
    · obtain ⟨as, path, has⟩ := s.exists_path_untouched hkilled
      obtain ⟨bs, rest, hbs⟩ := Stmt.exists_pathAll_readsFirst ss hx
      exact ⟨_, .cons path rest, readsFirst_append.mpr (Or.inr ⟨has, hbs⟩)⟩

end

theorem Stmt.mem_exposedAll_iff {ss : List Stmt} :
    x ∈ Stmt.exposedAll ss ↔ ∃ as, Stmt.PathAll ss as ∧ ReadsFirst x as :=
  ⟨Stmt.exists_pathAll_readsFirst ss, fun ⟨_, path, has⟩ => path.sound.1 has⟩

mutual

theorem Stmt.mem_names_of_mem_exposed : ∀ {s : Stmt}, x ∈ s.exposed → x ∈ s.names
  | .decl .., hx => List.mem_cons_of_mem _ (List.mem_toFinset.mp hx)
  | .assign .., hx => List.mem_cons_of_mem _ (List.mem_toFinset.mp hx)
  | .print .., hx => List.mem_toFinset.mp hx
  | .ifElse _ c yes no, hx => by
    rw [Stmt.exposed, Finset.mem_union, Finset.mem_union, List.mem_toFinset] at hx
    rw [Stmt.names, List.mem_append, List.mem_append]
    exact hx.imp (Or.imp id Stmt.mem_namesAll_of_mem_exposedAll) Stmt.mem_namesAll_of_mem_exposedAll
  | .loop _ c body, hx => by
    rw [Stmt.exposed, Finset.mem_union, List.mem_toFinset] at hx
    rw [Stmt.names, List.mem_append]
    exact hx.imp id Stmt.mem_namesAll_of_mem_exposedAll

theorem Stmt.mem_namesAll_of_mem_exposedAll : ∀ {ss : List Stmt}, x ∈ Stmt.exposedAll ss →
    x ∈ Stmt.namesAll ss
  | [], hx => by simp [Stmt.exposedAll] at hx
  | s :: ss, hx => by
    rw [Stmt.exposedAll, Finset.mem_union, Finset.mem_sdiff] at hx
    rw [Stmt.namesAll, List.mem_append]
    exact hx.imp Stmt.mem_names_of_mem_exposed fun h => Stmt.mem_namesAll_of_mem_exposedAll h.1

end

end Paths

section Start

variable {p : Program} {t : SymbolTable} {n : Nat} {g : BlockGraph} {events : List Event}
  {b : Builder}

/-- A way through the nodes of the flow graph is a way through the instructions. -/
theorem Builder.Inv.readAhead_iff (h : b.Inv events) {x : Slot} {i : Nat} :
    b.graph.purge.flowGraph.ReadAhead x i ↔ Readable events x i := by
  constructor
  · intro hahead
    induction hahead with
    | @here i hread =>
      rw [h.reads?_eq, Option.bind_eq_some_iff] at hread
      obtain ⟨op, hop, hread⟩ := hread
      exact ReadOrPass.readable ⟨op, hop, Or.inl hread⟩
    | @later i j hwrite hj _ ih =>
      have hfollows := h.mem_succs_iff.mp hj
      have ⟨op, hop, _⟩ := hfollows
      rw [h.writes?_eq, hop, Option.bind_some] at hwrite
      exact ReadOrPass.readable ⟨op, hop, Or.inr ⟨hwrite, j, hfollows, ih⟩⟩
  · rintro ⟨n, hn⟩
    induction n generalizing i with
    | zero => exact absurd hn id
    | succ n ih =>
      obtain ⟨op, hop, hread | ⟨hwrite, j, hj, hnext⟩⟩ := hn
      · exact .here (by rw [h.reads?_eq, hop, Option.bind_some, hread])
      · refine .later ?_ (h.mem_succs_iff.mpr hj) (ih hnext)
        rwa [h.writes?_eq, hop, Option.bind_some]

theorem Program.readable_start_iff (hcode : p.code t n = events.map .ok)
    (once : PlacedOnce events) {x : Slot} :
    Readable events x 0 ↔ t.SlotAmong (Stmt.exposedAll p.body) x := by
  obtain ⟨j, lie, hreturn, hlength⟩ := Program.liesAt hcode
  -- nothing is read once the method returns
  have hend : ¬ Readable events x j := by
    rintro ⟨n, hn⟩
    have hlt := ((readOrPass_other (fun _ => ReadWithin.lt) hreturn).mp hn.step).lt
    omega
  constructor
  · rintro ⟨n, hn⟩
    exact (lie.exposed_or_within once hn).resolve_right fun h => hend ⟨n, h.2⟩
  · exact fun h => lie.readable once (Or.inl h)

/-- The slots that are live at the start of a program's code are those of the variables that its
statements may read before they assign them.  So none is live there exactly if on every path each
variable is assigned before it is read. -/
theorem live_at_start (h : p.lower t n = .ok g) :
    (∀ s, s ∈ g.flowGraph.solved.1.liveIn 0 ↔ ∃ x ∈ Stmt.exposedAll p.body, t.slot? x = some s)
      ∧ (∀ x ∈ Stmt.exposedAll p.body, ∃ s ∈ g.flowGraph.solved.1.liveIn 0, t.slot? x = some s)
      ∧ ((∀ s, s ∉ g.flowGraph.solved.1.liveIn 0) ↔
        ∀ as, Stmt.PathAll p.body as → ∀ x, ¬ ReadsFirst x as) := by
  obtain ⟨depth, events, -, hcode, hbuild⟩ := Program.lower_ok h
  obtain ⟨b, hb, -, rfl⟩ := BlockGraph.exists_of_build hbuild
  have hlive : ∀ s, s ∈ b.graph.purge.flowGraph.solved.1.liveIn 0 ↔
      ∃ x ∈ Stmt.exposedAll p.body, t.slot? x = some s := fun s => by
    rw [FlowGraph.mem_liveIn_solved, hb.readAhead_iff,
      Program.readable_start_iff hcode hb.layout.placedOnce, SymbolTable.SlotAmong]
  have hslot : ∀ x ∈ Stmt.exposedAll p.body,
      ∃ s ∈ b.graph.purge.flowGraph.solved.1.liveIn 0, t.slot? x = some s := by
    intro x hx
    obtain ⟨j, lie, -⟩ := Program.liesAt hcode
    obtain ⟨s, hs⟩ := lie.exists_slot (Stmt.mem_namesAll_of_mem_exposedAll hx)
    exact ⟨s, (hlive s).mpr ⟨x, hx, hs⟩, hs⟩
  refine ⟨hlive, hslot, fun hnone as path x hx => ?_, fun hpaths s hs => ?_⟩
  · obtain ⟨s, hs, -⟩ := hslot x (Stmt.mem_exposedAll_iff.mpr ⟨as, path, hx⟩)
    exact hnone s hs
  · obtain ⟨x, hx, -⟩ := (hlive s).mp hs
    obtain ⟨as, path, has⟩ := Stmt.mem_exposedAll_iff.mp hx
    exact hpaths as path x has

/-- Both branches assign `y` and one of them `x`, and the sum reads both. -/
def oneSided : Program where
  source := "onesided.txt"
  className := "OneSided"
  body :=
    let here := Span.nowhere
    [.ifElse here (.var here "b")
        [.assign here "x" (.int here 1), .assign here "y" (.int here 1)]
        [.assign here "y" (.int here 2)],
      .print here (.binary here (.arith .add) (.var here "x") (.var here "y"))]

/-- The variables of `oneSided`. -/
def oneSidedSymbols : SymbolTable := (∅ : SymbolTable).declareAll ["y", "x", "b"]

theorem live_at_start_oneSided : ∃ g, oneSided.lower oneSidedSymbols 0 = .ok g
    ∧ Stmt.exposedAll oneSided.body = {"b", "x"}
    ∧ (∀ s, s ∈ g.flowGraph.solved.1.liveIn 0 ↔
        ∃ x ∈ Stmt.exposedAll oneSided.body, oneSidedSymbols.slot? x = some s)
    ∧ (∀ x ∈ Stmt.exposedAll oneSided.body,
        ∃ s ∈ g.flowGraph.solved.1.liveIn 0, oneSidedSymbols.slot? x = some s)
    ∧ ((∀ s, s ∉ g.flowGraph.solved.1.liveIn 0) ↔
        ∀ as, Stmt.PathAll oneSided.body as → ∀ x, ¬ ReadsFirst x as) := by
  have hg : oneSided.lower oneSidedSymbols 0 = .ok _ := rfl
  exact ⟨_, hg, by decide, live_at_start hg⟩

end Start

end SlotColoring
