import Mathlib.Data.List.Basic
import Mathlib.Data.List.Induction
import Mathlib.Order.Bounds.Defs
import SlotColoring.Program.Syntax

/-!
# Calls on a symbol table, and the numbers of declarations

Every call on a table is one of three: it finds a binding, makes one of a name and a slot that are
both free, or is refused and changes nothing (`SymbolTable.call_cases`).  So the bindings after some
calls are those that the calls answered (`SymbolTable.mem_after`), and names and slots stay in step
(`table_sound`).

Declarations alone take the slots one after the other.  A name that comes again finds its slot, and
once the last slot is taken new names find none; so the bindings are the first occurrences of the
names with their places (`SymbolTable.numbers_declareAll`).
-/

namespace SlotColoring

/-- A call on a symbol table. -/
inductive SymbolCall where
  | declare (name : String)
  | declareAt (name : String) (slot : Slot)
deriving DecidableEq

namespace SymbolTable

/-- The table after a call, and the binding that the answer stands for, if it is not a refusal. -/
def call (t : SymbolTable) : SymbolCall → SymbolTable × Option Binding
  | .declare x => ((t.declare x).1, (t.declare x).2.map fun s => ⟨x, s⟩)
  | .declareAt x s => ((t.declareAt x s).1, if (t.declareAt x s).2 then some ⟨x, s⟩ else none)

/-- The table after some calls. -/
def after (t : SymbolTable) (calls : List SymbolCall) : SymbolTable :=
  calls.foldl (fun t c => (t.call c).1) t

variable {t : SymbolTable} {x : String} {s : Slot} {b : Binding}

section LookUp

theorem slot?_eq_none_iff : t.slot? x = none ↔ ∀ b ∈ t.bindings, b.name ≠ x := by
  simp [slot?]

theorem name?_eq_none_iff : t.name? s = none ↔ ∀ b ∈ t.bindings, b.slot ≠ s := by
  simp [name?]

theorem nodup_bindings (t : SymbolTable) : t.bindings.Nodup :=
  t.distinct.imp fun h heq => h (by rw [heq])

/-- The last binding has the highest slot. -/
theorem index_lt_localCount (h : t.slot? x = some s) : s.index < t.localCount := by
  rw [slot?_eq_some_iff] at h
  unfold localCount
  rcases hlast : t.bindings.getLast? with _ | b
  · rw [List.getLast?_eq_none_iff] at hlast
    simp [hlast] at h
  · obtain ⟨before, hsplit⟩ := List.getLast?_eq_some_iff.mp hlast
    have hascending := t.ascending
    rw [hsplit, List.pairwise_append] at hascending
    rw [hsplit, List.mem_append, List.mem_singleton] at h
    simp only [Option.map_some, Option.getD_some]
    rcases h with h | rfl
    · have hlt : s.index < b.slot.index := hascending.2.2 _ h b (by simp)
      omega
    · simp

/-- Either nothing is bound, or some slot is the one before the size of the frame. -/
theorem localCount_cases (t : SymbolTable) :
    t.localCount = 1 ∨ ∃ x s, t.slot? x = some s ∧ t.localCount = s.index + 1 := by
  unfold localCount
  rcases hlast : t.bindings.getLast? with _ | b
  · exact Or.inl rfl
  · exact Or.inr ⟨b.name, b.slot, t.slot?_eq_some_iff.mpr (List.mem_of_getLast? hlast), rfl⟩

theorem isLeast_localCount (t : SymbolTable) :
    IsLeast {n | 1 ≤ n ∧ ∀ x s, t.slot? x = some s → s.index < n} t.localCount := by
  refine ⟨⟨?_, fun x s h => index_lt_localCount h⟩, ?_⟩
  · rcases t.localCount_cases with h | ⟨x, s, -, h⟩ <;> omega
  · rintro n ⟨hpos, habove⟩
    rcases t.localCount_cases with h | ⟨x, s, hs, h⟩
    · omega
    · have := habove x s hs
      omega

theorem nextSlot?_eq_none_iff :
    t.nextSlot? = none ↔ ∃ x s, s.index = 65535 ∧ t.name? s = some x := by
  have hfull : t.nextSlot? = none ↔ 65536 ≤ t.localCount := by
    unfold nextSlot? Slot.ofIndex?
    split_ifs with hlt
    · simpa [Slot.total] using hlt
    · simpa [Slot.total] using hlt
  rw [hfull]
  constructor
  · intro h
    rcases t.localCount_cases with hone | ⟨x, s, hs, hcount⟩
    · omega
    · have hlt : s.index < 65536 := s.index_lt
      exact ⟨x, s, by omega, t.name?_eq_some_iff.mpr (t.slot?_eq_some_iff.mp hs)⟩
  · rintro ⟨x, s, hlast, hs⟩
    have := index_lt_localCount (t.slot?_eq_some_iff.mpr (t.name?_eq_some_iff.mp hs))
    omega

theorem index_of_nextSlot? (h : t.nextSlot? = some s) : s.index = t.localCount := by
  unfold nextSlot? Slot.ofIndex? at h
  split_ifs at h
  rw [← Option.some.inj h]

end LookUp

section Calls

theorem declareAt_of_free (hx : t.slot? x = none) (hs : t.name? s = none) :
    (t.declareAt x s).1.bindings = place ⟨x, s⟩ t.bindings ∧ (t.declareAt x s).2 = true := by
  have hfree : ∀ b ∈ t.bindings, b.slot ≠ s ∧ b.name ≠ x := fun b hb =>
    ⟨name?_eq_none_iff.mp hs b hb, slot?_eq_none_iff.mp hx b hb⟩
  simp [declareAt, dif_pos hfree]

theorem declareAt_of_taken (h : ¬ (t.slot? x = none ∧ t.name? s = none)) :
    t.declareAt x s = (t, false) := by
  refine dif_neg fun hfree => h ⟨slot?_eq_none_iff.mpr fun b hb => (hfree b hb).2,
    name?_eq_none_iff.mpr fun b hb => (hfree b hb).1⟩

theorem declareAt_granted_iff :
    (t.declareAt x s).2 = true ↔ t.slot? x = none ∧ t.name? s = none := by
  by_cases h : t.slot? x = none ∧ t.name? s = none
  · exact ⟨fun _ => h, fun _ => (declareAt_of_free h.1 h.2).2⟩
  · rw [declareAt_of_taken h]
    exact ⟨fun hfalse => by simp at hfalse, fun hfree => absurd hfree h⟩

theorem declare_of_known (h : t.slot? x = some s) : t.declare x = (t, some s) := by
  simp [declare, h]

theorem declare_of_full (hx : t.slot? x = none) (h : t.nextSlot? = none) :
    t.declare x = (t, none) := by
  simp [declare, hx, h]

/-- No binding has the slot after the highest one. -/
theorem name?_nextSlot (h : t.nextSlot? = some s) : t.name? s = none := by
  refine name?_eq_none_iff.mpr fun b hb heq => ?_
  have hlt := index_lt_localCount (t.slot?_eq_some_iff.mpr hb)
  rw [← index_of_nextSlot? h, heq] at hlt
  omega

theorem declare_of_new (hx : t.slot? x = none) (h : t.nextSlot? = some s) :
    (t.declare x).1.bindings = place ⟨x, s⟩ t.bindings ∧ (t.declare x).2 = some s := by
  have hdeclare : t.declare x = ((t.declareAt x s).1, some s) := by simp [declare, hx, h]
  rw [hdeclare]
  exact ⟨(declareAt_of_free hx (name?_nextSlot h)).1, rfl⟩

/-- What a call can do: it finds a binding, makes one of a free name and a free slot, or is refused
and changes nothing. -/
theorem call_cases (t : SymbolTable) (c : SymbolCall) :
    (∃ b ∈ t.bindings, t.call c = (t, some b))
      ∨ (∃ b, t.slot? b.name = none ∧ t.name? b.slot = none ∧ (t.call c).2 = some b
          ∧ (t.call c).1.bindings = place b t.bindings)
      ∨ t.call c = (t, none) := by
  cases c with
  | declare x =>
    rcases hx : t.slot? x with _ | s
    · rcases hnext : t.nextSlot? with _ | s
      · exact Or.inr (Or.inr (by simp [call, declare_of_full hx hnext]))
      · obtain ⟨hbindings, hslot⟩ := declare_of_new hx hnext
        exact Or.inr (Or.inl ⟨⟨x, s⟩, hx, name?_nextSlot hnext, by simp [call, hslot], hbindings⟩)
    · exact Or.inl ⟨⟨x, s⟩, t.slot?_eq_some_iff.mp hx, by simp [call, declare_of_known hx]⟩
  | declareAt x s =>
    by_cases hfree : t.slot? x = none ∧ t.name? s = none
    · obtain ⟨hbindings, hgranted⟩ := declareAt_of_free hfree.1 hfree.2
      exact Or.inr (Or.inl ⟨⟨x, s⟩, hfree.1, hfree.2, by simp [call, hgranted], hbindings⟩)
    · exact Or.inr (Or.inr (by simp [call, declareAt_of_taken hfree]))

theorem mem_call {c : SymbolCall} :
    b ∈ (t.call c).1.bindings ↔ b ∈ t.bindings ∨ (t.call c).2 = some b := by
  rcases t.call_cases c with ⟨b', hb', hcall⟩ | ⟨b', -, -, hanswer, hbindings⟩ | hcall
  · rw [hcall, Option.some.injEq]
    exact ⟨Or.inl, fun h => h.elim id fun heq => heq ▸ hb'⟩
  · rw [hbindings, hanswer, mem_place, Option.some.injEq, or_comm, eq_comm]
  · rw [hcall]
    simp

/-- The bindings after some calls are those of before and those that the calls answered. -/
theorem mem_after : ∀ (calls : List SymbolCall) (t : SymbolTable),
    b ∈ (t.after calls).bindings ↔ b ∈ t.bindings
      ∨ ∃ before c later, calls = before ++ c :: later ∧ ((t.after before).call c).2 = some b
  | [], t => by simp [after]
  | c :: calls, t => by
    show b ∈ ((t.call c).1.after calls).bindings ↔ _
    rw [mem_after calls, mem_call, or_assoc]
    refine or_congr_right ⟨?_, ?_⟩
    · rintro (hc | ⟨before, d, later, rfl, hd⟩)
      · exact ⟨[], c, calls, rfl, hc⟩
      · exact ⟨c :: before, d, later, rfl, hd⟩
    · rintro ⟨before, d, later, hsplit, hd⟩
      rcases before with _ | ⟨e, before⟩
      · obtain ⟨rfl, -⟩ := List.cons.inj hsplit
        exact Or.inl hd
      · obtain ⟨rfl, rfl⟩ := List.cons.inj hsplit
        exact Or.inr ⟨before, d, later, rfl, hd⟩

theorem call_of_refused {c : SymbolCall} (h : (t.call c).2 = none) : (t.call c).1 = t := by
  rcases t.call_cases c with ⟨b, -, hcall⟩ | ⟨b, -, -, hanswer, -⟩ | hcall
  · simp [hcall] at h
  · simp [hanswer] at h
  · rw [hcall]

variable {x y : String} {s u : Slot}

theorem slot?_declare (h : (t.declare x).2 = some s) : (t.declare x).1.slot? x = some s := by
  rw [slot?_eq_some_iff]
  exact (mem_call (c := .declare x)).mpr (Or.inr (by simp [call, h]))

theorem slot?_declareAt (h : (t.declareAt x s).2 = true) :
    (t.declareAt x s).1.slot? x = some s := by
  rw [slot?_eq_some_iff]
  exact (mem_call (c := .declareAt x s)).mpr (Or.inr (by simp [call, h]))

theorem declare_eq_none_iff (hx : t.slot? x = none) :
    (t.declare x).2 = none ↔ t.nextSlot? = none := by
  rcases hnext : t.nextSlot? with _ | next
  · simp [declare_of_full hx hnext]
  · simp [(declare_of_new hx hnext).2]

/-- A new name is bound above all others. -/
theorem lt_of_declare (hx : t.slot? x = none) (h : (t.declare x).2 = some s)
    (hu : t.slot? y = some u) : u < s := by
  rcases hnext : t.nextSlot? with _ | next
  · simp [declare_of_full hx hnext] at h
  · rw [(declare_of_new hx hnext).2] at h
    obtain rfl := Option.some.inj h
    show u.index < next.index
    rw [index_of_nextSlot? hnext]
    exact index_lt_localCount hu

end Calls

end SymbolTable

/-- What some calls make of an empty table. -/
structure TableSound (calls : List SymbolCall) (t : SymbolTable) : Prop where
  converse : ∀ x s, t.slot? x = some s ↔ t.name? s = some x
  listed : ∀ x s, ⟨x, s⟩ ∈ t.bindings ↔ t.slot? x = some s
  listed_once : t.bindings.Nodup
  listed_ascending : t.bindings.Pairwise fun a b => a.slot < b.slot
  listed_length : t.bindings.length = t.size
  localCount_least : IsLeast {n | 1 ≤ n ∧ ∀ x s, t.slot? x = some s → s.index < n} t.localCount
  /-- What is bound are the bindings that the calls answered. -/
  answered : ∀ x s, t.slot? x = some s ↔ ∃ before c later, calls = before ++ c :: later
    ∧ (((∅ : SymbolTable).after before).call c).2 = some ⟨x, s⟩
  /-- No later calls change a binding. -/
  kept : ∀ later x s, t.slot? x = some s →
    (t.after later).slot? x = some s ∧ (t.after later).name? s = some x
  declare_known : ∀ x s, t.slot? x = some s → t.declare x = (t, some s)
  declare_new : ∀ x s, t.slot? x = none → (t.declare x).2 = some s →
    (t.declare x).1.slot? x = some s ∧ ∀ y u, t.slot? y = some u → u < s
  declare_full : ∀ x, t.slot? x = none →
    ((t.declare x).2 = none ↔ ∃ y s, s.index = 65535 ∧ t.name? s = some y)
  declareAt_iff : ∀ x s, (t.declareAt x s).2 = true ↔ t.slot? x = none ∧ t.name? s = none
  declareAt_bound : ∀ x s, (t.declareAt x s).2 = true → (t.declareAt x s).1.slot? x = some s
  declare_refused : ∀ x, (t.declare x).2 = none → (t.declare x).1 = t
  declareAt_refused : ∀ x s, (t.declareAt x s).2 = false → (t.declareAt x s).1 = t

/-- After any calls on an empty table, refused ones included, its names and slots are in step. -/
theorem table_sound (calls : List SymbolCall) :
    TableSound calls ((∅ : SymbolTable).after calls) where
  converse x s := by rw [SymbolTable.slot?_eq_some_iff, SymbolTable.name?_eq_some_iff]
  listed x s := (SymbolTable.slot?_eq_some_iff _).symm
  listed_once := SymbolTable.nodup_bindings _
  listed_ascending := SymbolTable.ascending _
  listed_length := rfl
  localCount_least := SymbolTable.isLeast_localCount _
  answered x s := by
    rw [SymbolTable.slot?_eq_some_iff, SymbolTable.mem_after]
    simp [show (∅ : SymbolTable).bindings = [] from rfl]
  kept later x s h := by
    have hmem := (SymbolTable.mem_after later _).mpr (Or.inl ((SymbolTable.slot?_eq_some_iff _).mp h))
    rw [SymbolTable.slot?_eq_some_iff, SymbolTable.name?_eq_some_iff]
    exact ⟨hmem, hmem⟩
  declare_known x s h := SymbolTable.declare_of_known h
  declare_new x s hx h := ⟨SymbolTable.slot?_declare h, fun y u => SymbolTable.lt_of_declare hx h⟩
  declare_full x hx := by rw [SymbolTable.declare_eq_none_iff hx, SymbolTable.nextSlot?_eq_none_iff]
  declareAt_iff x s := SymbolTable.declareAt_granted_iff
  declareAt_bound x s := SymbolTable.slot?_declareAt
  declare_refused x h :=
    SymbolTable.call_of_refused (c := .declare x) (by simp [SymbolTable.call, h])
  declareAt_refused x s h :=
    SymbolTable.call_of_refused (c := .declareAt x s) (by simp [SymbolTable.call, h])

section FirstOccurrences

variable {names : List String} {x : String}

theorem eraseDups_snoc : (names ++ [x]).eraseDups
    = if x ∈ names then names.eraseDups else names.eraseDups ++ [x] := by
  rw [List.eraseDups_append]
  split_ifs with hx
  · simp [List.removeAll, hx]
  · simp [List.removeAll, hx, List.eraseDups_cons]

theorem pairwise_idxOf_eraseDups (names : List String) :
    names.eraseDups.Pairwise fun x y => names.idxOf x < names.idxOf y := by
  induction names using List.reverseRecOn with
  | nil => exact List.Pairwise.nil
  | append_singleton names x ih =>
    have hidx : ∀ y ∈ names.eraseDups, (names ++ [x]).idxOf y = names.idxOf y := fun y hy =>
      List.idxOf_append_of_mem (List.mem_eraseDups.mp hy)
    have hkept : names.eraseDups.Pairwise
        fun y z => (names ++ [x]).idxOf y < (names ++ [x]).idxOf z := by
      refine ih.imp_of_mem fun {y z} hy hz hlt => ?_
      rwa [hidx y hy, hidx z hz]
    rw [eraseDups_snoc]
    split_ifs with hx
    · exact hkept
    · refine List.pairwise_append.mpr ⟨hkept, List.pairwise_singleton _ _, fun y hy z hz => ?_⟩
      rw [List.mem_singleton.mp hz, hidx y hy, List.idxOf_append_of_notMem hx]
      have := List.idxOf_lt_length_of_mem (List.mem_eraseDups.mp hy)
      omega

end FirstOccurrences

section Numbering

mutual

/-- A statement and those inside it, each before its own parts. -/
def Stmt.preorder : Stmt → List Stmt
  | .decl span x e => [.decl span x e]
  | .assign span x e => [.assign span x e]
  | .print span e => [.print span e]
  | .ifElse span c yes no =>
    .ifElse span c yes no :: (Stmt.preorderAll yes ++ Stmt.preorderAll no)
  | .loop span c body => .loop span c body :: Stmt.preorderAll body

/-- The statements of a list, each before the ones that it contains. -/
def Stmt.preorderAll : List Stmt → List Stmt
  | [] => []
  | s :: ss => s.preorder ++ Stmt.preorderAll ss

end

/-- The name that a statement declares. -/
def Stmt.declaration? : Stmt → Option String
  | .decl _ x _ => some x
  | _ => none

/-- The names of the declarations of a program, in the order of the walk. -/
def Program.declarations (p : Program) : List String :=
  (Stmt.preorderAll p.body).filterMap Stmt.declaration?

mutual

theorem Stmt.filterMap_preorder : ∀ s : Stmt, s.preorder.filterMap declaration? = s.declared
  | .decl span x e => rfl
  | .assign span x e => rfl
  | .print span e => rfl
  | .ifElse span c yes no => by
    rw [preorder, declared, List.filterMap_cons_none rfl, List.filterMap_append,
      filterMap_preorderAll yes, filterMap_preorderAll no]
  | .loop span c body => by
    rw [preorder, declared, List.filterMap_cons_none rfl, filterMap_preorderAll body]

theorem Stmt.filterMap_preorderAll : ∀ ss : List Stmt,
    (preorderAll ss).filterMap declaration? = declaredAll ss
  | [] => rfl
  | s :: ss => by
    rw [preorderAll, declaredAll, List.filterMap_append, filterMap_preorder s,
      filterMap_preorderAll ss]

end

namespace SymbolTable

theorem place_above {b : Binding} : ∀ {l : List Binding}, (∀ c ∈ l, c.slot < b.slot) →
    place b l = l ++ [b]
  | [], _ => rfl
  | c :: l, h => by
    have hc : ¬ b.slot < c.slot := fun hlt =>
      StrictTotal.irrefl _ (StrictTotal.trans hlt (h c (by simp)))
    rw [place, if_neg hc, place_above fun d hd => h d (List.mem_cons_of_mem _ hd),
      List.cons_append]

/-- The bindings are the names with their places in the list, counted from 1. -/
def Numbers (t : SymbolTable) (names : List String) : Prop :=
  t.bindings.map (fun b => (b.name, b.slot.index)) = names.zipIdx 1

namespace Numbers

variable {t : SymbolTable} {names : List String} {x : String} {s : Slot}

theorem slot?_eq_some_iff (h : t.Numbers names) :
    t.slot? x = some s ↔ 1 ≤ s.index ∧ names[s.index - 1]? = some x := by
  rw [t.slot?_eq_some_iff, ← List.mk_mem_zipIdx_iff_le_and_getElem?_sub, ← h, List.mem_map]
  constructor
  · exact fun hb => ⟨_, hb, rfl⟩
  · rintro ⟨b, hb, heq⟩
    obtain ⟨rfl, hindex⟩ := Prod.mk.inj heq
    rwa [← Slot.ext_index hindex]

theorem slot?_eq_none_iff (h : t.Numbers names) : t.slot? x = none ↔ x ∉ names := by
  have hnames : names = t.bindings.map Binding.name := by
    rw [← List.zipIdx_map_fst 1 names, ← h, List.map_map]
    rfl
  rw [SymbolTable.slot?_eq_none_iff, hnames]
  simp

theorem localCount_eq (h : t.Numbers names) : t.localCount = names.length + 1 := by
  have hcount : t.localCount = ((names.zipIdx 1).getLast?.map fun p => p.2 + 1).getD 1 := by
    rw [← h, List.getLast?_map, Option.map_map]
    rfl
  rw [hcount, List.getLast?_zipIdx, Option.map_map]
  rcases hlast : names.getLast? with _ | x
  · simp [List.getLast?_eq_none_iff.mp hlast]
  · have hpos := List.length_pos_of_mem (List.mem_of_getLast? hlast)
    show 1 + names.length - 1 + 1 = names.length + 1
    omega

/-- A name that is there finds its slot, and a new name gets the next slot unless the last one is
taken. -/
theorem declare (h : t.Numbers names) (hlength : names.length ≤ 65535) (x : String) :
    (t.declare x).1.Numbers
      (if x ∈ names ∨ names.length = 65535 then names else names ++ [x]) := by
  rcases hx : t.slot? x with _ | s
  · have hnew := h.slot?_eq_none_iff.mp hx
    by_cases hfull : names.length = 65535
    · have hnext : t.nextSlot? = none := by
        simp [nextSlot?, Slot.ofIndex?, h.localCount_eq, hfull, Slot.total]
      rwa [if_pos (Or.inr hfull), declare_of_full hx hnext]
    · have hlt : t.localCount < Slot.total := by
        rw [h.localCount_eq]
        show names.length + 1 < 65536
        omega
      have hnext : t.nextSlot? = some ⟨t.localCount, hlt⟩ := by
        rw [nextSlot?, Slot.ofIndex?, dif_pos hlt]
      have habove : ∀ b ∈ t.bindings, b.slot < ⟨t.localCount, hlt⟩ := fun b hb =>
        index_lt_localCount (t.slot?_eq_some_iff.mpr hb)
      rw [if_neg (by simp [hnew, hfull]), Numbers, (declare_of_new hx hnext).1, place_above habove,
        List.map_append, h, List.zipIdx_append]
      simp [h.localCount_eq, Nat.add_comm]
  · have hmem : x ∈ names := List.mem_of_getElem? (h.slot?_eq_some_iff.mp hx).2
    rwa [if_pos (Or.inl hmem), declare_of_known hx]

end Numbers

/-- Declared one after the other, the first occurrences of the names take the slots from 1 on, as
far as these go. -/
theorem numbers_declareAll (names : List String) :
    ((∅ : SymbolTable).declareAll names).Numbers (names.eraseDups.take 65535) := by
  induction names using List.reverseRecOn with
  | nil => rfl
  | append_singleton names x ih =>
    have hstep := ih.declare (List.length_take_le _ _) x
    have hsnoc : (∅ : SymbolTable).declareAll (names ++ [x])
        = (((∅ : SymbolTable).declareAll names).declare x).1 := by simp [declareAll]
    rw [hsnoc, eraseDups_snoc]
    rw [List.length_take] at hstep
    by_cases hx : x ∈ names
    · -- the name has a slot, or it is one of those that came too late to get one
      have hkept : x ∈ names.eraseDups.take 65535 ∨ min 65535 names.eraseDups.length = 65535 := by
        by_cases hroom : names.eraseDups.length ≤ 65535
        · rw [List.take_of_length_le hroom, List.mem_eraseDups]
          exact Or.inl hx
        · exact Or.inr (by omega)
      rw [if_pos hkept] at hstep
      rwa [if_pos hx]
    · have hnew : x ∉ names.eraseDups.take 65535 := fun hmem =>
        hx (List.mem_eraseDups.mp (List.mem_of_mem_take hmem))
      rw [if_neg hx]
      by_cases hroom : names.eraseDups.length < 65535
      · rw [if_neg (by simp only [hnew, false_or]; omega),
          List.take_of_length_le (by omega)] at hstep
        rwa [List.take_of_length_le (by simp; omega)]
      · rw [if_pos (Or.inr (by omega))] at hstep
        rwa [List.take_append_of_le_length (by omega)]

end SymbolTable

/-- The names that a program declares, each at its first declaration in the order of the walk. -/
def Program.firstDeclared (p : Program) : List String := p.declarations.eraseDups

/-- The declarations of a program are numbered from 1 on in the order in which their names first
occur, and those that come after slot 65535 is taken are left out. -/
theorem symbols_numbered (p : Program) :
    (∀ x, x ∈ p.firstDeclared ↔ x ∈ p.declarations)
      ∧ p.firstDeclared.Pairwise (fun x y => p.declarations.idxOf x < p.declarations.idxOf y)
      ∧ (∀ x s, p.symbols.slot? x = some s ↔
          1 ≤ s.index ∧ p.firstDeclared[s.index - 1]? = some x)
      ∧ p.symbols.localCount = min p.firstDeclared.length 65535 + 1 := by
  have hnumbers : p.symbols.Numbers (p.firstDeclared.take 65535) := by
    rw [Program.symbols, ← Stmt.filterMap_preorderAll]
    exact SymbolTable.numbers_declareAll _
  refine ⟨fun x => List.mem_eraseDups, pairwise_idxOf_eraseDups _, fun x s => ?_, ?_⟩
  · have hlt : s.index < 65536 := s.index_lt
    rw [hnumbers.slot?_eq_some_iff]
    refine and_congr_right fun hpos => ?_
    rw [List.getElem?_take_of_lt (by omega)]
  · rw [hnumbers.localCount_eq, List.length_take, Nat.min_comm]

end Numbering

end SlotColoring
