import Mathlib.Logic.Function.Basic
import SlotColoring.Program.Syntax

/-!
# What a program means

An expression has a value in the integers, wrapped to 32 bits, or a fault.  Truth values are the
integers 0 and 1; the connectives ask for them and a fault tells where there is none
(`Fault.notTruth`).  Running a statement ends in a world or with a fault, or it does not end, and
then nothing is derivable (`Stmt.Runs`).  A program whose connectives stand only on truth values, by
its syntax, never meets that fault (`Program.not_runs_notTruth`).
-/

namespace SlotColoring

/-- Why a program is aborted. -/
inductive Fault where
  | divisionByZero
  /-- The operand of a connective is neither 0 nor 1. -/
  | notTruth
deriving DecidableEq

/-- The integer of a truth value. -/
def ofTruth (b : Bool) : Int32 := if b then 1 else 0

/-- The truth value that an integer stands for. -/
def truthOf (v : Int32) : Except Fault Bool :=
  if v = 0 then .ok false else if v = 1 then .ok true else .error .notTruth

theorem truthOf_ofTruth (b : Bool) : truthOf (ofTruth b) = .ok b := by
  cases b <;> rfl

theorem eq_ofTruth {v : Int32} {b : Bool} (h : truthOf v = .ok b) : v = ofTruth b := by
  unfold truthOf at h
  split at h
  · rename_i hv
    rw [hv, ← Except.ok.inj h]
    rfl
  · split at h
    · rename_i hv
      rw [hv, ← Except.ok.inj h]
      rfl
    · simp at h

/-- The value of an operation on integers; division truncates towards zero. -/
def Arith.value : Arith → Int32 → Int32 → Except Fault Int32
  | add, a, b => .ok (.ofInt (a.toInt + b.toInt))
  | sub, a, b => .ok (.ofInt (a.toInt - b.toInt))
  | mul, a, b => .ok (.ofInt (a.toInt * b.toInt))
  | div, a, b => if b = 0 then .error .divisionByZero else .ok (.ofInt (a.toInt.tdiv b.toInt))
  | rem, a, b => if b = 0 then .error .divisionByZero else .ok (.ofInt (a.toInt.tmod b.toInt))
  | and, a, b => do
    let p ← truthOf a
    let q ← truthOf b
    return ofTruth (p && q)
  | or, a, b => do
    let p ← truthOf a
    let q ← truthOf b
    return ofTruth (p || q)

/-- The relation between integers. -/
def Comparison.relates : Comparison → Int → Int → Bool
  | eq, a, b => a = b
  | ne, a, b => a ≠ b
  | lt, a, b => a < b
  | ge, a, b => b ≤ a
  | gt, a, b => b < a
  | le, a, b => a ≤ b

/-- The value of an operation with two operands. -/
def BinaryOp.value : BinaryOp → Int32 → Int32 → Except Fault Int32
  | arith op, a, b => op.value a b
  | compare c, a, b => .ok (ofTruth (c.relates a.toInt b.toInt))

/-- The value of an operation with one operand. -/
def UnaryOp.value : UnaryOp → Int32 → Except Fault Int32
  | neg, a => .ok (.ofInt (-a.toInt))
  | not, a => do
    let p ← truthOf a
    return ofTruth (!p)

/-- The value of an expression; both operands are evaluated, the left one first. -/
def Expr.value (vars : String → Int32) : Expr → Except Fault Int32
  | int _ v => .ok v
  | bool _ b => .ok (ofTruth b)
  | var _ x => .ok (vars x)
  | unary _ op e => do
    let a ← e.value vars
    op.value a
  | binary _ op l r => do
    let a ← l.value vars
    let b ← r.value vars
    op.value a b

/-- The variables and what was printed. -/
structure World where
  vars : String → Int32
  output : List Int32

namespace World

/-- The world before a program runs, with every variable `0`. -/
def start : World := ⟨fun _ => 0, []⟩

/-- Gives a variable a value. -/
def set (w : World) (x : String) (v : Int32) : World :=
  { w with vars := Function.update w.vars x v }

/-- Prints a number after the others. -/
def print (w : World) (v : Int32) : World := { w with output := w.output ++ [v] }

end World

mutual

/-- Run in the first world, the statement ends in the second or with the fault. -/
inductive Stmt.Runs : World → Stmt → Except Fault World → Prop
  | decl {w : World} {span : Span} {x : String} {e : Expr} :
      Stmt.Runs w (.decl span x e) ((e.value w.vars).map (w.set x))
  | assign {w : World} {span : Span} {x : String} {e : Expr} :
      Stmt.Runs w (.assign span x e) ((e.value w.vars).map (w.set x))
  | print {w : World} {span : Span} {e : Expr} :
      Stmt.Runs w (.print span e) ((e.value w.vars).map w.print)
  | ifYes {w : World} {span : Span} {c : Expr} {yes no : List Stmt} {v : Int32}
      {r : Except Fault World} (cond : c.value w.vars = .ok v) (nonzero : v ≠ 0)
      (branch : Stmt.RunsAll w yes r) : Stmt.Runs w (.ifElse span c yes no) r
  | ifNo {w : World} {span : Span} {c : Expr} {yes no : List Stmt} {r : Except Fault World}
      (cond : c.value w.vars = .ok 0) (branch : Stmt.RunsAll w no r) :
      Stmt.Runs w (.ifElse span c yes no) r
  | ifFault {w : World} {span : Span} {c : Expr} {yes no : List Stmt} {fault : Fault}
      (cond : c.value w.vars = .error fault) : Stmt.Runs w (.ifElse span c yes no) (.error fault)
  | loopDone {w : World} {span : Span} {c : Expr} {body : List Stmt}
      (cond : c.value w.vars = .ok 0) : Stmt.Runs w (.loop span c body) (.ok w)
  | loopAgain {w w' : World} {span : Span} {c : Expr} {body : List Stmt} {v : Int32}
      {r : Except Fault World} (cond : c.value w.vars = .ok v) (nonzero : v ≠ 0)
      (pass : Stmt.RunsAll w body (.ok w')) (again : Stmt.Runs w' (.loop span c body) r) :
      Stmt.Runs w (.loop span c body) r
  | loopFault {w : World} {span : Span} {c : Expr} {body : List Stmt} {v : Int32} {fault : Fault}
      (cond : c.value w.vars = .ok v) (nonzero : v ≠ 0)
      (pass : Stmt.RunsAll w body (.error fault)) : Stmt.Runs w (.loop span c body) (.error fault)
  | condFault {w : World} {span : Span} {c : Expr} {body : List Stmt} {fault : Fault}
      (cond : c.value w.vars = .error fault) : Stmt.Runs w (.loop span c body) (.error fault)

/-- The same of some statements, one after the other. -/
inductive Stmt.RunsAll : World → List Stmt → Except Fault World → Prop
  | nil {w : World} : Stmt.RunsAll w [] (.ok w)
  | cons {w w' : World} {s : Stmt} {ss : List Stmt} {r : Except Fault World}
      (first : Stmt.Runs w s (.ok w')) (rest : Stmt.RunsAll w' ss r) : Stmt.RunsAll w (s :: ss) r
  | consFault {w : World} {s : Stmt} {ss : List Stmt} {fault : Fault}
      (first : Stmt.Runs w s (.error fault)) : Stmt.RunsAll w (s :: ss) (.error fault)

end

/-- Run with all variables zero, the program ends in the world or with the fault. -/
def Program.Runs (p : Program) (r : Except Fault World) : Prop := Stmt.RunsAll .start p.body r

section Names

/-- The variables of an expression, from left to right. -/
def Expr.names : Expr → List String
  | int .. => []
  | bool .. => []
  | var _ x => [x]
  | unary _ _ e => e.names
  | binary _ _ l r => l.names ++ r.names

mutual

/-- The variables of a statement, written or read. -/
def Stmt.names : Stmt → List String
  | .decl _ x e => x :: e.names
  | .assign _ x e => x :: e.names
  | .print _ e => e.names
  | .ifElse _ c yes no => c.names ++ Stmt.namesAll yes ++ Stmt.namesAll no
  | .loop _ c body => c.names ++ Stmt.namesAll body

/-- The variables of the statements of a list. -/
def Stmt.namesAll : List Stmt → List String
  | [] => []
  | s :: ss => s.names ++ Stmt.namesAll ss

end

/-- The variables of a program. -/
def Program.names (p : Program) : List String := Stmt.namesAll p.body

end Names

section Checked

/-- The operation asks for truth values, and its value is one. -/
def Arith.isConnective : Arith → Bool
  | and => true
  | or => true
  | _ => false

/-- The expression is one that has a truth value. -/
def Expr.isTruth : Expr → Bool
  | bool .. => true
  | unary _ .not _ => true
  | binary _ (.arith op) _ _ => op.isConnective
  | binary _ (.compare _) _ _ => true
  | _ => false

/-- The connectives stand on expressions that have truth values. -/
def Expr.checked : Expr → Bool
  | int .. => true
  | bool .. => true
  | var .. => true
  | unary _ .neg e => e.checked
  | unary _ .not e => e.checked && e.isTruth
  | binary _ (.arith op) l r =>
    l.checked && r.checked && (!op.isConnective || (l.isTruth && r.isTruth))
  | binary _ (.compare _) l r => l.checked && r.checked

mutual

/-- Every expression of the statement is checked. -/
def Stmt.checked : Stmt → Bool
  | .decl _ _ e => e.checked
  | .assign _ _ e => e.checked
  | .print _ e => e.checked
  | .ifElse _ c yes no => c.checked && Stmt.checkedAll yes && Stmt.checkedAll no
  | .loop _ c body => c.checked && Stmt.checkedAll body

/-- Every expression of the statements of a list is checked. -/
def Stmt.checkedAll : List Stmt → Bool
  | [] => true
  | s :: ss => s.checked && Stmt.checkedAll ss

end

theorem bind_eq_ok {α β : Type} {x : Except Fault α} {k : α → Except Fault β} {b : β}
    (h : x >>= k = .ok b) : ∃ a, x = .ok a ∧ k a = .ok b := by
  cases x with
  | error fault => cases h
  | ok a => exact ⟨a, rfl, h⟩

theorem bind_eq_error {α β : Type} {x : Except Fault α} {k : α → Except Fault β} {fault : Fault}
    (h : x >>= k = .error fault) : x = .error fault ∨ ∃ a, x = .ok a ∧ k a = .error fault := by
  cases x with
  | error e =>
    cases h
    exact Or.inl rfl
  | ok a => exact Or.inr ⟨a, rfl, h⟩

variable {vars : String → Int32}

theorem Expr.truth_of_value : ∀ {e : Expr} {v : Int32}, e.isTruth = true →
    e.value vars = .ok v → ∃ p, v = ofTruth p
  | .bool _ b, v, _, h => ⟨b, (Except.ok.inj h).symm⟩
  | .unary _ .not e, v, _, h => by
    obtain ⟨a, -, h⟩ := bind_eq_ok h
    obtain ⟨p, -, h⟩ := bind_eq_ok h
    exact ⟨!p, (Except.ok.inj h).symm⟩
  | .binary _ (.arith op) l r, v, htruth, h => by
    obtain ⟨a, -, h⟩ := bind_eq_ok h
    obtain ⟨b, -, h⟩ := bind_eq_ok h
    cases op with
    | and =>
      obtain ⟨p, -, h⟩ := bind_eq_ok h
      obtain ⟨q, -, h⟩ := bind_eq_ok h
      exact ⟨p && q, (Except.ok.inj h).symm⟩
    | or =>
      obtain ⟨p, -, h⟩ := bind_eq_ok h
      obtain ⟨q, -, h⟩ := bind_eq_ok h
      exact ⟨p || q, (Except.ok.inj h).symm⟩
    | _ => simp [isTruth, Arith.isConnective] at htruth
  | .binary _ (.compare c) l r, v, _, h => by
    obtain ⟨a, -, h⟩ := bind_eq_ok h
    obtain ⟨b, -, h⟩ := bind_eq_ok h
    exact ⟨_, (Except.ok.inj h).symm⟩

theorem Arith.value_ne_notTruth {op : Arith} {a b : Int32}
    (h : op.isConnective = true → (∃ p, a = ofTruth p) ∧ ∃ q, b = ofTruth q) :
    op.value a b ≠ .error .notTruth := by
  intro hfault
  cases op with
  | add => cases hfault
  | sub => cases hfault
  | mul => cases hfault
  | div =>
    simp only [value] at hfault
    split at hfault <;> cases hfault
  | rem =>
    simp only [value] at hfault
    split at hfault <;> cases hfault
  | and =>
    obtain ⟨⟨p, rfl⟩, q, rfl⟩ := h rfl
    cases p <;> cases q <;> cases hfault
  | or =>
    obtain ⟨⟨p, rfl⟩, q, rfl⟩ := h rfl
    cases p <;> cases q <;> cases hfault

theorem Expr.value_ne_notTruth : ∀ {e : Expr}, e.checked = true →
    e.value vars ≠ .error .notTruth
  | .int .., _, h => by cases h
  | .bool .., _, h => by cases h
  | .var .., _, h => by cases h
  | .unary _ .neg e, hchecked, h => by
    have he : e.checked = true := hchecked
    rcases bind_eq_error h with h | ⟨a, -, h⟩
    · exact value_ne_notTruth he h
    · cases h
  | .unary _ .not e, hchecked, h => by
    simp only [checked, Bool.and_eq_true] at hchecked
    rcases bind_eq_error h with h | ⟨a, ha, h⟩
    · exact value_ne_notTruth hchecked.1 h
    · obtain ⟨p, rfl⟩ := truth_of_value hchecked.2 ha
      rcases bind_eq_error h with h | ⟨q, -, h⟩
      · simp [truthOf_ofTruth] at h
      · cases h
  | .binary _ (.arith op) l r, hchecked, h => by
    simp only [checked, Bool.and_eq_true, Bool.or_eq_true, Bool.not_eq_true'] at hchecked
    obtain ⟨⟨hl, hr⟩, hop⟩ := hchecked
    rcases bind_eq_error h with h | ⟨a, ha, h⟩
    · exact value_ne_notTruth hl h
    · rcases bind_eq_error h with h | ⟨b, hb, h⟩
      · exact value_ne_notTruth hr h
      · refine op.value_ne_notTruth (fun hconnective => ?_) h
        rcases hop with hop | ⟨hlt, hrt⟩
        · simp [hconnective] at hop
        · exact ⟨truth_of_value hlt ha, truth_of_value hrt hb⟩
  | .binary _ (.compare c) l r, hchecked, h => by
    simp only [checked, Bool.and_eq_true] at hchecked
    rcases bind_eq_error h with h | ⟨a, -, h⟩
    · exact value_ne_notTruth hchecked.1 h
    · rcases bind_eq_error h with h | ⟨b, -, h⟩
      · exact value_ne_notTruth hchecked.2 h
      · cases h

theorem map_ne_notTruth {α β : Type} {x : Except Fault α} {k : α → β}
    (h : x ≠ .error .notTruth) : x.map k ≠ .error .notTruth := by
  intro hmap
  cases x with
  | error fault =>
    cases hmap
    exact h rfl
  | ok a => cases hmap

mutual

theorem Stmt.Runs.ne_notTruth : ∀ {w : World} {s : Stmt} {r : Except Fault World}, s.Runs w r →
    s.checked = true → r ≠ .error .notTruth
  | _, _, _, .decl, h => map_ne_notTruth (Expr.value_ne_notTruth h)
  | _, _, _, .assign, h => map_ne_notTruth (Expr.value_ne_notTruth h)
  | _, _, _, .print, h => map_ne_notTruth (Expr.value_ne_notTruth h)
  | _, _, _, .ifYes _ _ branch, h => by
    simp only [Stmt.checked, Bool.and_eq_true] at h
    exact branch.ne_notTruth h.1.2
  | _, _, _, .ifNo _ branch, h => by
    simp only [Stmt.checked, Bool.and_eq_true] at h
    exact branch.ne_notTruth h.2
  | _, _, _, .ifFault cond, h => by
    simp only [Stmt.checked, Bool.and_eq_true] at h
    rintro ⟨⟩
    exact Expr.value_ne_notTruth h.1.1 cond
  | _, _, _, .loopDone _, _ => by simp
  | _, _, _, .loopAgain _ _ _ again, h => again.ne_notTruth h
  | _, _, _, .loopFault _ _ pass, h => by
    simp only [Stmt.checked, Bool.and_eq_true] at h
    exact pass.ne_notTruth h.2
  | _, _, _, .condFault cond, h => by
    simp only [Stmt.checked, Bool.and_eq_true] at h
    rintro ⟨⟩
    exact Expr.value_ne_notTruth h.1 cond

theorem Stmt.RunsAll.ne_notTruth : ∀ {w : World} {ss : List Stmt} {r : Except Fault World},
    Stmt.RunsAll w ss r → Stmt.checkedAll ss = true → r ≠ .error .notTruth
  | _, _, _, .nil, _ => by simp
  | _, _, _, .cons _ rest, h => by
    simp only [Stmt.checkedAll, Bool.and_eq_true] at h
    exact rest.ne_notTruth h.2
  | _, _, _, .consFault first, h => by
    simp only [Stmt.checkedAll, Bool.and_eq_true] at h
    exact first.ne_notTruth h.1

end

theorem Program.not_runs_notTruth {p : Program} (h : Stmt.checkedAll p.body = true) :
    ¬ p.Runs (.error .notTruth) :=
  fun hruns => hruns.ne_notTruth h rfl

end Checked

end SlotColoring
