import Mathlib.Order.MinMax
import SlotColoring.Proofs.BlockEdges
import SlotColoring.Proofs.Bytecode
import SlotColoring.Proofs.LoweredCode

/-!
# The depth of the stack at each instruction

The syntax tells how many values lie on the stack before each instruction of the code
(`Expr.depths`, `Stmt.depths`).  Two things are shown of these numbers, each by induction on the
syntax.  Following an instruction's stack effect, along every way that control may pass, leads from
the number at the instruction to the number at the next (`Expr.LiesAt.balanced`,
`Stmt.LiesAt.balanced`).  And the greatest of them is the height of the syntax (`Expr.peak_depths`,
`Stmt.peak_depths`), which is also what the moves of the operand stack come to
(`Expr.run_stackMoves`, `Stmt.run_stackMoves`).
-/

namespace SlotColoring

/-- The depths before the instructions of an expression that is evaluated on top of `d` values. -/
def Expr.depths : Expr → Nat → List Nat
  | int .., d => [d]
  | bool .., d => [d]
  | var .., d => [d]
  | unary _ .neg e, d => e.depths d ++ [d + 1]
  | unary _ .not e, d => e.depths d ++ [d + 1, d + 2]
  | binary _ (.arith _) l r, d => l.depths d ++ r.depths (d + 1) ++ [d + 2]
  | binary _ (.compare _) l r, d => l.depths d ++ r.depths (d + 1) ++ [d + 2, d, d + 1, d]

mutual

/-- The depths before the instructions of a statement. -/
def Stmt.depths : Stmt → List Nat
  | .decl _ _ e => e.depths 0 ++ [1]
  | .assign _ _ e => e.depths 0 ++ [1]
  | .print _ e => 0 :: e.depths 1 ++ [2]
  | .ifElse _ c yes no => c.depths 0 ++ 1 :: Stmt.depthsAll yes ++ 0 :: Stmt.depthsAll no
  | .loop _ c body => c.depths 0 ++ 1 :: Stmt.depthsAll body ++ [0]

/-- The depths before the instructions of the statements of a list. -/
def Stmt.depthsAll : List Stmt → List Nat
  | [] => []
  | s :: ss => s.depths ++ Stmt.depthsAll ss

end

/-- The depths before the instructions of a program, `return` being the last. -/
def Program.depths (p : Program) : List Nat := Stmt.depthsAll p.body ++ [0]

/-- The number of values that the evaluation of an expression needs on the stack. -/
def Expr.height : Expr → Nat
  | int .. => 1
  | bool .. => 1
  | var .. => 1
  | unary _ .neg e => e.height
  | unary _ .not e => max e.height 2
  | binary _ _ l r => max l.height (r.height + 1)

mutual

/-- The greatest depth that a statement reaches. -/
def Stmt.height : Stmt → Nat
  | .decl _ _ e => e.height
  | .assign _ _ e => e.height
  | .print _ e => e.height + 1
  | .ifElse _ c yes no => max c.height (max (Stmt.heightAll yes) (Stmt.heightAll no))
  | .loop _ c body => max c.height (Stmt.heightAll body)

/-- The greatest depth that a statement of a list reaches. -/
def Stmt.heightAll : List Stmt → Nat
  | [] => 0
  | s :: ss => max s.height (Stmt.heightAll ss)

end

theorem Expr.height_pos : ∀ e : Expr, 0 < e.height
  | int .. => Nat.one_pos
  | bool .. => Nat.one_pos
  | var .. => Nat.one_pos
  | unary _ .neg e => e.height_pos
  | unary _ .not e => by simp [height]
  | binary _ _ l r => by simp [height]

section Moves

namespace OperandStack

theorem run_nil (m : OperandStack) : m.run [] = .ok m := rfl

theorem run_push (d top : Nat) (xs : List StackMove) :
    (⟨d, top⟩ : OperandStack).run (.push :: xs)
      = (⟨d + 1, max top (d + 1)⟩ : OperandStack).run xs := rfl

theorem run_pop (d top : Nat) (xs : List StackMove) :
    (⟨d + 1, top⟩ : OperandStack).run (.pop :: xs) = (⟨d, top⟩ : OperandStack).run xs := rfl

theorem run_append {m m' : OperandStack} {xs ys : List StackMove} (h : m.run xs = .ok m') :
    m.run (xs ++ ys) = m'.run ys := by
  induction xs generalizing m with
  | nil =>
    obtain rfl := Except.ok.inj h
    rfl
  | cons x xs ih =>
    simp only [List.cons_append, run] at h ⊢
    split at h
    · exact ih h
    · simp at h

end OperandStack

open OperandStack (run_append run_push run_pop run_nil)

theorem Expr.run_stackMoves : ∀ (e : Expr) (d top : Nat),
    (⟨d, top⟩ : OperandStack).run e.stackMoves = .ok ⟨d + 1, max top (d + e.height)⟩
  | int .., d, top => rfl
  | bool .., d, top => rfl
  | var .., d, top => rfl
  | unary _ .neg e, d, top => by
    have hpos := e.height_pos
    have htop : max (max top (d + e.height)) (d + 1) = max top (d + e.height) := by omega
    rw [stackMoves, run_append (e.run_stackMoves d top), run_pop, run_push, run_nil, htop, height]
  | unary _ .not e, d, top => by
    have htop : max (max (max top (d + e.height)) (d + 2)) (d + 1)
        = max top (d + max e.height 2) := by omega
    rw [stackMoves, run_append (e.run_stackMoves d top), run_push, run_pop, run_pop, run_push,
      run_nil, htop, height]
  | binary _ _ l r, d, top => by
    have htop : max (max (max top (d + l.height)) (d + 1 + r.height)) (d + 1)
        = max top (d + max l.height (r.height + 1)) := by omega
    rw [stackMoves, List.append_assoc, run_append (l.run_stackMoves d top),
      run_append (r.run_stackMoves (d + 1) _), run_pop, run_pop, run_push, run_nil, htop, height]

theorem Expr.run_popped (e : Expr) (top : Nat) :
    (⟨0, top⟩ : OperandStack).run (e.stackMoves ++ [.pop]) = .ok ⟨0, max top e.height⟩ := by
  rw [run_append (e.run_stackMoves 0 top), run_pop, run_nil, Nat.zero_add]

mutual

theorem Stmt.run_stackMoves : ∀ (s : Stmt) (top : Nat),
    (⟨0, top⟩ : OperandStack).run s.stackMoves = .ok ⟨0, max top s.height⟩
  | .decl _ _ e, top => e.run_popped top
  | .assign _ _ e, top => e.run_popped top
  | .print _ e, top => by
    have hpos := e.height_pos
    have htop : max (max top 1) (1 + e.height) = max top (e.height + 1) := by omega
    rw [stackMoves, List.cons_append, run_push, run_append (e.run_stackMoves 1 _), run_pop, run_pop,
      run_nil, htop, height]
  | .ifElse _ c yes no, top => by
    rw [stackMoves, List.append_assoc, run_append (c.run_popped top),
      run_append (Stmt.run_stackMovesAll yes _), Stmt.run_stackMovesAll no, height, Nat.max_assoc,
      Nat.max_assoc]
  | .loop _ c body, top => by
    rw [stackMoves, run_append (c.run_popped top), Stmt.run_stackMovesAll body, height,
      Nat.max_assoc]

theorem Stmt.run_stackMovesAll : ∀ (ss : List Stmt) (top : Nat),
    (⟨0, top⟩ : OperandStack).run (Stmt.stackMovesAll ss) = .ok ⟨0, max top (Stmt.heightAll ss)⟩
  | [], top => by rw [stackMovesAll, run_nil, heightAll, Nat.max_zero]
  | s :: ss, top => by
    rw [stackMovesAll, run_append (s.run_stackMoves top), Stmt.run_stackMovesAll ss, heightAll,
      Nat.max_assoc]

end

theorem Program.finalStack_eq (p : Program) :
    p.finalStack = .ok ⟨0, Stmt.heightAll p.body⟩ := by
  unfold finalStack
  rw [show (∅ : OperandStack) = ⟨0, 0⟩ from rfl, Stmt.run_stackMovesAll, Nat.zero_max]

theorem Program.maxStackDepth_eq (p : Program) : p.maxStackDepth = .ok (Stmt.heightAll p.body) := by
  rw [maxStackDepth, p.finalStack_eq]
  rfl

end Moves

section Peak

/-- The greatest of some depths. -/
def peak (ds : List Nat) : Nat := ds.foldr max 0

@[simp] theorem peak_nil : peak [] = 0 := rfl

@[simp] theorem peak_cons (d : Nat) (ds : List Nat) : peak (d :: ds) = max d (peak ds) := rfl

@[simp] theorem peak_append (ds es : List Nat) : peak (ds ++ es) = max (peak ds) (peak es) := by
  induction ds with
  | nil => simp
  | cons d ds ih => simp [ih, Nat.max_assoc]

theorem le_peak {d : Nat} {ds : List Nat} (h : d ∈ ds) : d ≤ peak ds := by
  induction ds with
  | nil => simp at h
  | cons c ds ih =>
    rcases List.mem_cons.mp h with rfl | h
    · simp
    · simp [ih h]

theorem peak_mem : ∀ {ds : List Nat}, ds ≠ [] → peak ds ∈ ds
  | [], h => absurd rfl h
  | [d], _ => by simp
  | d :: c :: ds, _ => by
    have ih : peak (c :: ds) ∈ c :: ds := peak_mem (by simp)
    rcases Nat.le_total d (peak (c :: ds)) with hle | hle
    · rw [peak_cons, Nat.max_eq_right hle]
      exact List.mem_cons_of_mem _ ih
    · rw [peak_cons, Nat.max_eq_left hle]
      exact List.mem_cons_self

/-- The value of the expression is still to be counted, since the depths are taken before the
instructions. -/
theorem Expr.peak_depths : ∀ (e : Expr) (d : Nat),
    max (peak (e.depths d)) (d + 1) = d + e.height
  | int .., d => by simp [depths, height]
  | bool .., d => by simp [depths, height]
  | var .., d => by simp [depths, height]
  | unary _ .neg e, d => by
    have ih := e.peak_depths d
    simp only [depths, height, peak_append, peak_cons, peak_nil]
    omega
  | unary _ .not e, d => by
    have ih := e.peak_depths d
    simp only [depths, height, peak_append, peak_cons, peak_nil]
    omega
  | binary _ (.arith _) l r, d => by
    have ihl := l.peak_depths d
    have ihr := r.peak_depths (d + 1)
    simp only [depths, height, peak_append, peak_cons, peak_nil]
    omega
  | binary _ (.compare _) l r, d => by
    have ihl := l.peak_depths d
    have ihr := r.peak_depths (d + 1)
    have htail : peak [d + 2, d, d + 1, d] = d + 2 := by
      simp only [peak_cons, peak_nil]
      omega
    simp only [depths, height, peak_append, htail]
    omega

mutual

theorem Stmt.peak_depths : ∀ s : Stmt, peak s.depths = s.height
  | .decl _ _ e => by
    have he := e.peak_depths 0
    simp only [depths, height, peak_append, peak_cons, peak_nil]
    omega
  | .assign _ _ e => by
    have he := e.peak_depths 0
    simp only [depths, height, peak_append, peak_cons, peak_nil]
    omega
  | .print _ e => by
    have he := e.peak_depths 1
    simp only [depths, height, peak_append, peak_cons, peak_nil]
    omega
  | .ifElse _ c yes no => by
    have hc := c.peak_depths 0
    simp only [depths, height, peak_append, peak_cons, Stmt.peak_depthsAll yes,
      Stmt.peak_depthsAll no]
    omega
  | .loop _ c body => by
    have hc := c.peak_depths 0
    simp only [depths, height, peak_append, peak_cons, peak_nil, Stmt.peak_depthsAll body]
    omega

theorem Stmt.peak_depthsAll : ∀ ss : List Stmt, peak (Stmt.depthsAll ss) = Stmt.heightAll ss
  | [] => rfl
  | s :: ss => by
    rw [depthsAll, heightAll, peak_append, s.peak_depths, Stmt.peak_depthsAll ss]

end

theorem Program.peak_depths (p : Program) : peak p.depths = Stmt.heightAll p.body := by
  simp [Program.depths, Stmt.peak_depthsAll]

end Peak

section Balanced

variable {events : List Event} {t : SymbolTable} {D : Nat → Nat}

/-- From `i` on the function takes the given values. -/
def Takes (D : Nat → Nat) (i : Nat) : List Nat → Prop
  | [] => True
  | d :: ds => D i = d ∧ Takes D (i + 1) ds

theorem takes_append (ds : List Nat) {es : List Nat} {i : Nat} :
    Takes D i (ds ++ es) ↔ Takes D i ds ∧ Takes D (i + ds.length) es := by
  induction ds generalizing i with
  | nil => simp [Takes]
  | cons d ds ih =>
    rw [List.cons_append, Takes, Takes, ih, List.length_cons, and_assoc, Nat.add_assoc,
      Nat.add_comm 1]

theorem takes_getD (ds before : List Nat) :
    Takes (fun i => (before ++ ds).getD i 0) before.length ds := by
  induction ds generalizing before with
  | nil => trivial
  | cons d ds ih =>
    refine ⟨by simp, ?_⟩
    have h := ih (before ++ [d])
    rwa [List.append_assoc, List.length_append] at h

/-- The `k`-th instruction takes the depth before it to the depth at each place where control may
go from it, and is not `return`. -/
structure BalancedAt (events : List Event) (D : Nat → Nat) (k : Nat) (op : Opcode)
    (eff : StackEffect) : Prop where
  opcode : (emitted events)[k]? = some op
  effect : op.effect? = some eff
  pops_le : eff.pops ≤ D k
  next : op.isGoto = false → D (k + 1) = D k - eff.pops + eff.pushes
  target : ∀ l m, op.target? = some l → PlacedAt events l m → D m = D k - eff.pops + eff.pushes
  stays : op ≠ .other "return" []

/-- The instructions from the `i`-th up to the `j`-th keep to the depths. -/
def Balanced (events : List Event) (D : Nat → Nat) (i j : Nat) : Prop :=
  ∀ k, i ≤ k → k < j → ∃ op eff, BalancedAt events D k op eff

theorem Balanced.trans {i m j : Nat} (h : Balanced events D i m) (h' : Balanced events D m j) :
    Balanced events D i j := by
  intro k hi hj
  rcases Nat.lt_or_ge k m with hm | hm
  · exact h k hi hm
  · exact h' k hm hj

theorem Balanced.refl (i : Nat) : Balanced events D i i := by
  intro k hi hj
  omega

theorem BalancedAt.balanced {k : Nat} {op : Opcode} {eff : StackEffect}
    (h : BalancedAt events D k op eff) : Balanced events D k (k + 1) := by
  intro n hk hn
  obtain rfl : n = k := by omega
  exact ⟨op, eff, h⟩

theorem Balanced.operation {k d : Nat} {m : String} {operands : List String} {o : Operation}
    (hop : (emitted events)[k]? = some (.other m operands))
    (ho : Operation.ofText? m operands = some o) (hleave : o ≠ .leave)
    (hk : D k = d + o.effect.pops) (hnext : D (k + 1) = d + o.effect.pushes) :
    Balanced events D k (k + 1) := by
  refine BalancedAt.balanced ⟨hop, by rw [Opcode.effect?, ho, Option.map_some], by omega,
    fun _ => by omega, by simp [Opcode.target?], ?_⟩
  intro hreturn
  rw [Opcode.other.injEq] at hreturn
  rw [hreturn.1, hreturn.2] at ho
  exact hleave (Option.some.inj ho).symm

theorem Balanced.load {k : Nat} {s : Slot} (hop : (emitted events)[k]? = some (.load s))
    (hnext : D (k + 1) = D k + 1) : Balanced events D k (k + 1) :=
  BalancedAt.balanced ⟨hop, rfl, Nat.zero_le _, fun _ => hnext, by simp [Opcode.target?], by simp⟩

theorem Balanced.store {k : Nat} {s : Slot} (hop : (emitted events)[k]? = some (.store s))
    (hk : D k = D (k + 1) + 1) : Balanced events D k (k + 1) :=
  BalancedAt.balanced
    ⟨hop, rfl, by simp [hk], fun _ => by simp [hk], by simp [Opcode.target?], by simp⟩

theorem Balanced.jump (once : PlacedOnce events) {k m d : Nat} {c : Condition}
    {l : Label} (hop : (emitted events)[k]? = some (.jump c l)) (hl : PlacedAt events l m)
    (hk : D k = d + c.pops) (hnext : c = .always ∨ D (k + 1) = d) (hm : D m = d) :
    Balanced events D k (k + 1) := by
  have heffect : (Opcode.jump c l).effect? = some ⟨c.pops, 0⟩ := rfl
  refine BalancedAt.balanced ⟨hop, heffect, ?_, ?_, ?_, by simp⟩
  · simp [hk]
  · intro hgoto
    rcases hnext with rfl | hnext
    · simp [Opcode.isGoto] at hgoto
    · simp [hk, hnext]
  · intro l' n hl' hn
    obtain rfl := Option.some.inj hl'
    simp [once _ _ _ hn hl, hk, hm]

theorem Expr.LiesAt.end_eq {e : Expr} {i j : Nat} (h : e.LiesAt events t i j) (d : Nat) :
    j = i + (e.depths d).length := by
  induction h generalizing d with
  | int op => rfl
  | bool op => rfl
  | var slot op => rfl
  | neg operand op ih =>
    simp [depths, ← Nat.add_assoc, ← ih d]
  | not operand one op ih =>
    simp [depths, ← Nat.add_assoc, ← ih d]
  | arith left right op ihl ihr =>
    simp [depths, ← Nat.add_assoc, ← ihl d, ← ihr (d + 1)]
  | compare left right test zero skip one yes_at done_at ihl ihr =>
    simp [depths, ← Nat.add_assoc, ← ihl d, ← ihr (d + 1)]

theorem Expr.LiesAt.takes {e : Expr} {i j : Nat} (h : e.LiesAt events t i j) {d : Nat}
    {ds : List Nat} : Takes D i (e.depths d ++ ds) ↔ Takes D i (e.depths d) ∧ Takes D j ds := by
  rw [takes_append, ← h.end_eq d]

theorem Expr.takes_start : ∀ (e : Expr) {i d : Nat}, Takes D i (e.depths d) → D i = d
  | int .., i, d, h => h.1
  | bool .., i, d, h => h.1
  | var .., i, d, h => h.1
  | unary _ .neg e, i, d, h => e.takes_start ((takes_append _).mp h).1
  | unary _ .not e, i, d, h => e.takes_start ((takes_append _).mp h).1
  | binary _ (.arith _) l r, i, d, h => by
    rw [depths, List.append_assoc, takes_append] at h
    exact l.takes_start h.1
  | binary _ (.compare _) l r, i, d, h => by
    rw [depths, List.append_assoc, takes_append] at h
    exact l.takes_start h.1

theorem Expr.LiesAt.balanced (once : PlacedOnce events) {e : Expr} {i j : Nat}
    (h : e.LiesAt events t i j) {d : Nat} (hds : Takes D i (e.depths d)) (hend : D j = d + 1) :
    Balanced events D i j := by
  induction h generalizing d with
  | int op =>
    have hi := takes_start _ hds
    exact .operation op (Operation.ofText?_ldc _) (by simp) hi hend
  | bool op =>
    have hi := takes_start _ hds
    split at op <;> exact .operation op rfl (by simp) hi hend
  | var slot op =>
    have hi := takes_start _ hds
    exact .load op (by rw [hi, hend])
  | neg operand op ih =>
    obtain ⟨he, hm, -⟩ := operand.takes.mp hds
    exact (ih he hm).trans (.operation op rfl (by simp) hm hend)
  | not operand one op ih =>
    obtain ⟨he, hm, hm', -⟩ := operand.takes.mp hds
    have hone : Balanced events D _ _ := .operation one rfl (by simp) hm hm'
    exact ((ih he hm).trans hone).trans (.operation op rfl (by simp) hm' hend)
  | arith left right op ihl ihr =>
    rw [depths, List.append_assoc, left.takes, right.takes] at hds
    obtain ⟨hl, hr, hk, -⟩ := hds
    have hm := takes_start _ hr
    refine ((ihl hl hm).trans (ihr hr hk)).trans ?_
    exact .operation op (Operation.ofText?_arith _) (by simp) hk hend
  | compare left right test zero skip one yes_at done_at ihl ihr =>
    rw [depths, List.append_assoc, left.takes, right.takes] at hds
    obtain ⟨hl, hr, hk, hzero, hskip, hone, -⟩ := hds
    have hm := takes_start _ hr
    refine ((ihl hl hm).trans (ihr hr hk)).trans ?_
    -- both ways out of the comparison come to its end with one value more
    have htest := Balanced.jump once test yes_at hk (Or.inr hzero) hone
    have hno := Balanced.operation zero rfl (by simp) hzero hskip
    have hjump := Balanced.jump once skip done_at hskip (Or.inl rfl) hend
    have hyes := Balanced.operation one rfl (by simp) hone hend
    exact ((htest.trans hno).trans hjump).trans hyes

mutual

theorem Stmt.LiesAt.end_eq : ∀ {s : Stmt} {i j : Nat}, s.LiesAt events t i j →
    j = i + s.depths.length
  | _, _, _, .decl slot value op => by
    simp [Stmt.depths, ← Nat.add_assoc, ← value.end_eq 0]
  | _, _, _, .assign slot value op => by
    simp [Stmt.depths, ← Nat.add_assoc, ← value.end_eq 0]
  | _, _, _, .print stream value op => by
    have h := value.end_eq 1
    simp [Stmt.depths]
    omega
  | _, _, _, .ifElse cond test yes_lie skip no_lie otherwise_at done_at => by
    have hc := cond.end_eq 0
    have hyes := yes_lie.end_eq
    have hno := no_lie.end_eq
    simp [Stmt.depths]
    omega
  | _, _, _, .loop again_at cond test body_lie back done_at => by
    have hc := cond.end_eq 0
    have hbody := body_lie.end_eq
    simp [Stmt.depths]
    omega

theorem Stmt.AllLieAt.end_eq : ∀ {ss : List Stmt} {i j : Nat}, Stmt.AllLieAt events t i ss j →
    j = i + (Stmt.depthsAll ss).length
  | _, _, _, .nil => rfl
  | _, _, _, .cons first rest => by
    have hfirst := first.end_eq
    have hrest := rest.end_eq
    simp [Stmt.depthsAll]
    omega

end

theorem Stmt.LiesAt.takes {s : Stmt} {i j : Nat} (h : s.LiesAt events t i j) {ds : List Nat} :
    Takes D i (s.depths ++ ds) ↔ Takes D i s.depths ∧ Takes D j ds := by
  rw [takes_append, ← h.end_eq]

theorem Stmt.AllLieAt.takes {ss : List Stmt} {i j : Nat} (h : Stmt.AllLieAt events t i ss j)
    {ds : List Nat} :
    Takes D i (Stmt.depthsAll ss ++ ds) ↔ Takes D i (Stmt.depthsAll ss) ∧ Takes D j ds := by
  rw [takes_append, ← h.end_eq]

theorem Stmt.takes_start {i : Nat} : ∀ s : Stmt, Takes D i s.depths → D i = 0
  | .decl _ _ e, h => e.takes_start ((takes_append _).mp h).1
  | .assign _ _ e, h => e.takes_start ((takes_append _).mp h).1
  | .print _ e, h => h.1
  | .ifElse _ c yes no, h => by
    rw [Stmt.depths, List.append_assoc, takes_append] at h
    exact c.takes_start h.1
  | .loop _ c body, h => by
    rw [Stmt.depths, List.append_assoc, takes_append] at h
    exact c.takes_start h.1

theorem Stmt.AllLieAt.takes_start {ss : List Stmt} {i j : Nat} (h : Stmt.AllLieAt events t i ss j)
    (hds : Takes D i (Stmt.depthsAll ss)) (hend : D j = 0) : D i = 0 := by
  cases h with
  | nil => exact hend
  | cons first rest => exact Stmt.takes_start _ (first.takes.mp hds).1

mutual

theorem Stmt.LiesAt.balanced (once : PlacedOnce events) : ∀ {s : Stmt} {i j : Nat},
    s.LiesAt events t i j → Takes D i s.depths → D j = 0 → Balanced events D i j
  | _, i, _, .decl slot value op, hds, hend => by
    obtain ⟨he, hm, -⟩ := value.takes.mp hds
    exact (value.balanced once he hm).trans (.store op (by rw [hm, hend]))
  | _, i, _, .assign slot value op, hds, hend => by
    obtain ⟨he, hm, -⟩ := value.takes.mp hds
    exact (value.balanced once he hm).trans (.store op (by rw [hm, hend]))
  | _, i, _, .print stream value op, hds, hend => by
    obtain ⟨hi, hds⟩ := hds
    obtain ⟨he, hm, -⟩ := value.takes.mp hds
    have hstream := Balanced.operation stream rfl (by simp) hi (Expr.takes_start _ he)
    refine (hstream.trans (value.balanced once he hm)).trans ?_
    exact .operation op rfl (by simp) hm hend
  | _, i, _, .ifElse cond test yes_lie skip no_lie otherwise_at done_at, hds, hend => by
    rw [Stmt.depths, List.append_assoc, cond.takes] at hds
    obtain ⟨hc, hm, hds⟩ := hds
    obtain ⟨hyes, hk, hno⟩ := yes_lie.takes.mp hds
    have hfirst := yes_lie.takes_start hyes hk
    have hothers := no_lie.takes_start hno hend
    have htest := Balanced.jump once test otherwise_at hm (Or.inr hfirst) hothers
    have hskip := Balanced.jump once skip done_at hk (Or.inl rfl) hend
    have hcond := (cond.balanced once hc hm).trans htest
    have hbranch := (yes_lie.balanced once hyes hk).trans hskip
    exact (hcond.trans hbranch).trans (no_lie.balanced once hno hend)
  | _, i, _, .loop again_at cond test body_lie back done_at, hds, hend => by
    rw [Stmt.depths, List.append_assoc, cond.takes] at hds
    obtain ⟨hc, hm, hds⟩ := hds
    obtain ⟨hbody, hk, -⟩ := body_lie.takes.mp hds
    have hfirst := body_lie.takes_start hbody hk
    have htest := Balanced.jump once test done_at hm (Or.inr hfirst) hend
    have hback := Balanced.jump once back again_at hk (Or.inl rfl) (Expr.takes_start _ hc)
    have hcond := (cond.balanced once hc hm).trans htest
    exact hcond.trans ((body_lie.balanced once hbody hk).trans hback)

theorem Stmt.AllLieAt.balanced (once : PlacedOnce events) : ∀ {ss : List Stmt} {i j : Nat},
    Stmt.AllLieAt events t i ss j → Takes D i (Stmt.depthsAll ss) → D j = 0 →
    Balanced events D i j
  | _, i, _, .nil, _, _ => .refl i
  | _, i, _, .cons first rest, hds, hend => by
    obtain ⟨hfirst, hrest⟩ := first.takes.mp hds
    have hnext := rest.takes_start hrest hend
    exact (first.balanced once hfirst hnext).trans (rest.balanced once hrest hend)

end

end Balanced

section Frame

variable {p : Program} {t : SymbolTable} {n : Nat}

/-- The depth before an instruction of a program. -/
def Program.depthAt (p : Program) (i : Nat) : Nat := p.depths.getD i 0

theorem Program.takes_depthAt (p : Program) : Takes p.depthAt 0 p.depths := takes_getD p.depths []

/-- The depths of a program fit its code up to `return`, where the stack is empty. -/
theorem Program.balanced {events : List Event} (once : PlacedOnce events)
    (h : p.code t n = events.map .ok) : ∃ j, (emitted events)[j]? = some (.other "return" [])
      ∧ (emitted events).length = j + 1 ∧ p.depths.length = j + 1 ∧ p.depthAt 0 = 0
      ∧ p.depthAt j = 0 ∧ Balanced events p.depthAt 0 j := by
  obtain ⟨j, lie, hreturn, hlength⟩ := Program.liesAt h
  obtain ⟨hbody, hend, -⟩ := lie.takes.mp p.takes_depthAt
  refine ⟨j, hreturn, hlength, ?_, lie.takes_start hbody hend, hend, lie.balanced once hbody hend⟩
  simp [Program.depths, lie.end_eq]

theorem Program.depthAt_le (p : Program) (i : Nat) : p.depthAt i ≤ Stmt.heightAll p.body := by
  rw [← p.peak_depths, depthAt, List.getD_eq_getElem?_getD]
  rcases hi : p.depths[i]? with _ | d
  · exact Nat.zero_le _
  · exact le_peak (List.mem_of_getElem? hi)

theorem Program.exists_depthAt_eq (p : Program) :
    ∃ i < p.depths.length, p.depthAt i = Stmt.heightAll p.body := by
  have hmem : peak p.depths ∈ p.depths := peak_mem (by simp [Program.depths])
  obtain ⟨i, hi, hpeak⟩ := List.getElem_of_mem hmem
  refine ⟨i, hi, ?_⟩
  rw [depthAt, List.getD_eq_getElem?_getD, List.getElem?_eq_getElem hi, Option.getD_some, hpeak,
    p.peak_depths]

/-- The frame of a lowered program provides the stack that its code needs and no more: the stack
has one depth at each instruction, on whichever way control came there. -/
theorem lower_stack_exact (p : Program) :
    (∃ top, p.finalStack = .ok ⟨0, top⟩) ∧ ∀ t n g, p.lower t n = .ok g →
      p.maxStackDepth = .ok g.head.stackSize ∧ ∃ depth : Nat → Nat,
        depth 0 = 0
        ∧ (∀ i ins, g.instructions[i]? = some ins → ∃ eff, ins.opcode.effect? = some eff
            ∧ eff.pops ≤ depth i
            ∧ (∀ j ∈ g.flowGraph.succs i, depth j = depth i - eff.pops + eff.pushes)
            ∧ (ins.opcode = .other "return" [] → depth i = 0))
        ∧ (∀ i < g.instructions.length, depth i ≤ g.head.stackSize)
        ∧ ∃ i < g.instructions.length, depth i = g.head.stackSize := by
  refine ⟨⟨_, p.finalStack_eq⟩, fun t n g h => ?_⟩
  obtain ⟨size, events, hsize, hcode, hbuild⟩ := Program.lower_ok h
  have hhead : g.head.stackSize = size := by rw [BlockGraph.head_of_build hbuild]
  obtain rfl : Stmt.heightAll p.body = size := Except.ok.inj (p.maxStackDepth_eq.symm.trans hsize)
  obtain ⟨b, hb, -, rfl⟩ := BlockGraph.exists_of_build hbuild
  have hf := BlockGraph.finished_of_build hbuild
  obtain ⟨r, hreturn, hlength, hdepths, hfirst, hlast, hbalanced⟩ := Program.balanced hf.once hcode
  have hcount : b.graph.purge.instructions.length = p.depths.length := by
    have hmap := congrArg List.length hf.opcodes
    rw [List.length_map, hlength, ← hdepths] at hmap
    exact hmap
  rw [hhead, hcount]
  refine ⟨hsize, p.depthAt, hfirst, ?_, fun i _ => p.depthAt_le i, p.exists_depthAt_eq⟩
  intro i ins hins
  have hop : (emitted events)[i]? = some ins.opcode := by
    rw [← hf.opcodes, List.getElem?_map]
    exact congrArg (Option.map Instruction.opcode) hins
  have hi := (List.getElem?_eq_some_iff.mp hop).1
  rcases Nat.lt_or_ge i r with hir | hir
  · obtain ⟨op, eff, hat⟩ := hbalanced i (Nat.zero_le i) hir
    obtain rfl : op = ins.opcode := Option.some.inj (hat.opcode.symm.trans hop)
    refine ⟨eff, hat.effect, hat.pops_le, ?_, fun hleave => absurd hleave hat.stays⟩
    intro j hj
    obtain ⟨op, hop', -, ⟨rfl, hgoto⟩ | ⟨l, hl, hplaced⟩⟩ := hb.mem_succs_iff.mp hj
    · obtain rfl := Option.some.inj (hop.symm.trans hop')
      exact hat.next hgoto
    · obtain rfl := Option.some.inj (hop.symm.trans hop')
      exact hat.target l j hl hplaced
  · obtain rfl : i = r := by omega
    have hleave : ins.opcode = .other "return" [] := Option.some.inj (hop.symm.trans hreturn)
    refine ⟨⟨0, 0⟩, by rw [hleave]; rfl, Nat.zero_le _, ?_, fun _ => hlast⟩
    -- nothing follows the last instruction
    intro j hj
    obtain ⟨op, hop', hlt, ⟨rfl, -⟩ | ⟨l, hl, -⟩⟩ := hb.mem_succs_iff.mp hj
    · omega
    · rw [← Option.some.inj (hop.symm.trans hop'), hleave] at hl
      simp [Opcode.target?] at hl

/-- The comparison is made on top of the stream and of the left operand of the sum. -/
theorem lower_stack_exact_countdown : ∃ g, countdown.lower countdown.symbols 0 = .ok g
    ∧ g.head.stackSize = 4 ∧ ∃ depth : Nat → Nat, depth 0 = 0
      ∧ (∀ i ins, g.instructions[i]? = some ins → ∃ eff, ins.opcode.effect? = some eff
          ∧ eff.pops ≤ depth i
          ∧ (∀ j ∈ g.flowGraph.succs i, depth j = depth i - eff.pops + eff.pushes)
          ∧ (ins.opcode = .other "return" [] → depth i = 0))
      ∧ (∀ i < g.instructions.length, depth i ≤ 4)
      ∧ ∃ i < g.instructions.length, depth i = 4 := by
  have hg : countdown.lower countdown.symbols 0 = .ok _ := rfl
  exact ⟨_, hg, rfl, ((lower_stack_exact countdown).2 _ _ _ hg).2⟩

end Frame

end SlotColoring
