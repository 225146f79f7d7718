import SlotColoring.Proofs.LoweredCode
import SlotColoring.Proofs.Meaning
import SlotColoring.Proofs.Stepping

/-!
# Lowering keeps the meaning of a program

Run where it lies, the code of an expression pushes its value, and the code of a statement brings
the frame to the world that the statement ends in; where the meaning is a division by zero, the run
traps (`Expr.LiesAt.reaches`, `Stmt.Runs.reaches`).  For the converse, a run that comes to `return`
does not go on for ever, since the machine has no choice (`Moves.unique`).  So it leaves every loop
that it entered and every statement on its way has an outcome (`Stmt.LiesAt.exists_runs`), and by
the first part that outcome is where the run came to.
-/

namespace SlotColoring

open Relation (ReflTransGen TransGen)

section Numbers

theorem Arith.compute?_of_value {op : Arith} {a b v : Int32} (h : op.value a b = .ok v) :
    op.compute? a b = some v := by
  cases op with
  | add => simpa [value, compute?, Int32.ofInt_add] using h
  | sub => simpa [value, compute?, Int32.ofInt_sub] using h
  | mul => simpa [value, compute?, Int32.ofInt_mul] using h
  | div =>
    have hdiv := Int32.ofInt_tdiv a.minValue_le_toInt a.toInt_le b.minValue_le_toInt b.toInt_le
    simp only [value, compute?] at h ⊢
    split_ifs at h ⊢
    simpa [hdiv] using h
  | rem =>
    have hrem := Int32.ofInt_tmod a.minValue_le_toInt a.toInt_le b.minValue_le_toInt b.toInt_le
    simp only [value, compute?] at h ⊢
    split_ifs at h ⊢
    simpa [hrem] using h
  | and =>
    obtain ⟨p, hp, h⟩ := bind_eq_ok h
    obtain ⟨q, hq, h⟩ := bind_eq_ok h
    obtain rfl := Except.ok.inj h
    rw [eq_ofTruth hp, eq_ofTruth hq]
    cases p <;> cases q <;> rfl
  | or =>
    obtain ⟨p, hp, h⟩ := bind_eq_ok h
    obtain ⟨q, hq, h⟩ := bind_eq_ok h
    obtain rfl := Except.ok.inj h
    rw [eq_ofTruth hp, eq_ofTruth hq]
    cases p <;> cases q <;> rfl

theorem truthOf_ne_divisionByZero (v : Int32) : truthOf v ≠ .error .divisionByZero := by
  unfold truthOf
  split_ifs <;> simp

theorem Arith.compute?_of_divisionByZero {op : Arith} {a b : Int32}
    (h : op.value a b = .error .divisionByZero) : op.compute? a b = none := by
  cases op with
  | add => cases h
  | sub => cases h
  | mul => cases h
  | div =>
    simp only [value] at h
    split_ifs at h with hb
    simp [compute?, hb]
  | rem =>
    simp only [value] at h
    split_ifs at h with hb
    simp [compute?, hb]
  | and =>
    rcases bind_eq_error h with h | ⟨p, -, h⟩
    · exact absurd h (truthOf_ne_divisionByZero a)
    · rcases bind_eq_error h with h | ⟨q, -, h⟩
      · exact absurd h (truthOf_ne_divisionByZero b)
      · cases h
  | or =>
    rcases bind_eq_error h with h | ⟨p, -, h⟩
    · exact absurd h (truthOf_ne_divisionByZero a)
    · rcases bind_eq_error h with h | ⟨q, -, h⟩
      · exact absurd h (truthOf_ne_divisionByZero b)
      · cases h

theorem Comparison.holds_eq (c : Comparison) (a b : Int32) :
    c.holds a b = c.relates a.toInt b.toInt := by
  cases c <;>
    simp [holds, relates, Int32.toInt_inj, Int32.lt_iff_toInt_lt, Int32.le_iff_toInt_le]

theorem xor_one (p : Bool) : ofTruth p ^^^ 1 = ofTruth (!p) := by
  cases p <;> rfl

end Numbers

section Machine

variable {events : List Event} {c d e : Nat × Frame}

theorem Moves.unique (once : PlacedOnce events) (h : Moves events c d) (h' : Moves events c e) :
    d = e := by
  cases h with
  | proceed opcode exec =>
    cases h' with
    | proceed opcode' exec' =>
      obtain rfl := Option.some.inj (opcode.symm.trans opcode')
      obtain rfl := Reaction.proceed.inj (exec.symm.trans exec')
      rfl
    | branch opcode' exec' place' =>
      obtain rfl := Option.some.inj (opcode.symm.trans opcode')
      cases exec.symm.trans exec'
  | branch opcode exec place =>
    cases h' with
    | proceed opcode' exec' =>
      obtain rfl := Option.some.inj (opcode.symm.trans opcode')
      cases exec.symm.trans exec'
    | branch opcode' exec' place' =>
      obtain rfl := Option.some.inj (opcode.symm.trans opcode')
      obtain ⟨rfl, rfl⟩ := Reaction.branch.inj (exec.symm.trans exec')
      rw [once _ _ _ place place']

theorem Moves.operation {i : Nat} {m : String} {operands : List String} {o : Operation}
    {f f' : Frame} (opcode : (emitted events)[i]? = some (.other m operands))
    (ho : Operation.ofText? m operands = some o) (exec : o.exec f = .proceed f') :
    Moves events (i, f) (i + 1, f') :=
  .proceed opcode ((Opcode.exec_other ho).trans exec)

/-- The run comes to an instruction that traps. -/
def Traps (events : List Event) (c : Nat × Frame) : Prop :=
  ∃ i f op, ReflTransGen (Moves events) c (i, f) ∧ (emitted events)[i]? = some op
    ∧ op.exec f = .trap

/-- The run comes to a point that is right for the result, or traps where a division by zero should
be. -/
def Reaches {α : Type} (events : List Event) (c : Nat × Frame) (Q : α → Nat × Frame → Prop) :
    Except Fault α → Prop
  | .ok a => ∃ d, ReflTransGen (Moves events) c d ∧ Q a d
  | .error .divisionByZero => Traps events c
  | .error .notTruth => True

section Composition

variable {α β : Type} {Q : α → Nat × Frame → Prop} {Q' : β → Nat × Frame → Prop}
  {r : Except Fault α}

theorem Reaches.head (h : Reaches events d Q r) (hmoves : ReflTransGen (Moves events) c d) :
    Reaches events c Q r := by
  rcases r with fault | a
  · cases fault with
    | divisionByZero =>
      obtain ⟨i, f, op, hrest, hop, htrap⟩ := h
      exact ⟨i, f, op, hmoves.trans hrest, hop, htrap⟩
    | notTruth => trivial
  · obtain ⟨e, hrest, ha⟩ := h
    exact ⟨e, hmoves.trans hrest, ha⟩

/-- After a fault it does not matter what should have come. -/
theorem Reaches.fault {fault : Fault} (h : Reaches events c Q r) (hr : r = .error fault) :
    Reaches events c Q' (.error fault) := by
  subst hr
  cases fault with
  | divisionByZero => exact h
  | notTruth => trivial

theorem Reaches.bind {k : α → Except Fault β} (h : Reaches events c Q r)
    (h' : ∀ a d, Q a d → Reaches events d Q' (k a)) : Reaches events c Q' (r >>= k) := by
  rcases r with fault | a
  · exact h.fault rfl
  · obtain ⟨d, hmoves, ha⟩ := h
    exact (h' a d ha).head hmoves

theorem Reaches.tail {Q' : α → Nat × Frame → Prop} (h : Reaches events c Q r)
    (h' : ∀ a d, Q a d → ∃ e, Moves events d e ∧ Q' a e) : Reaches events c Q' r := by
  rcases r with fault | a
  · exact h.fault rfl
  · obtain ⟨d, hmoves, ha⟩ := h
    obtain ⟨e, hmove, he⟩ := h' a d ha
    exact ⟨e, hmoves.tail hmove, he⟩

theorem reaches_map {k : α → β} :
    Reaches events c Q' (r.map k) ↔ Reaches events c (fun a => Q' (k a)) r := by
  rcases r with fault | a
  · cases fault <;> rfl
  · rfl

end Composition

end Machine

section Expressions

variable {events : List Event} {t : SymbolTable} {vars : String → Int32}

/-- Each slot holds the value of its variable. -/
def Agrees (t : SymbolTable) (vars : String → Int32) (f : Frame) : Prop :=
  ∀ x s, t.slot? x = some s → f.slots s = vars x

/-- The `j`-th instruction is next, and the value lies on top of what was on the stack. -/
def Pushed (j : Nat) (f : Frame) (v : Int32) (d : Nat × Frame) : Prop := d = (j, f.push (.int v))

theorem Agrees.push {f : Frame} (h : Agrees t vars f) (v : Value) : Agrees t vars (f.push v) := h

theorem reaches_arith {k : Nat} {o : Arith} {f : Frame} {a b : Int32}
    (op : (emitted events)[k]? = some (.other o.mnemonic [])) :
    Reaches events (k, (f.push (.int a)).push (.int b)) (Pushed (k + 1) f) (o.value a b) := by
  have hexec := Opcode.exec_other (f := (f.push (.int a)).push (.int b)) (Operation.ofText?_arith o)
  rcases hv : o.value a b with fault | v
  · cases fault with
    | divisionByZero =>
      refine ⟨k, _, _, .refl, op, hexec.trans ?_⟩
      simp [Operation.exec, Frame.push, Arith.compute?_of_divisionByZero hv]
    | notTruth => trivial
  · refine ⟨_, .single (.proceed op (hexec.trans ?_)), rfl⟩
    simp [Operation.exec, Frame.push, Arith.compute?_of_value hv]

theorem reaches_not {m : Nat} {f : Frame} {a : Int32}
    (one : (emitted events)[m]? = some (.other "iconst_1" []))
    (op : (emitted events)[m + 1]? = some (.other "ixor" [])) :
    Reaches events (m, f.push (.int a)) (Pushed (m + 2) f) (UnaryOp.not.value a) := by
  rw [UnaryOp.value]
  rcases ha : truthOf a with fault | p
  · cases fault with
    | divisionByZero => exact absurd ha (truthOf_ne_divisionByZero a)
    | notTruth => trivial
  · obtain rfl := eq_ofTruth ha
    have hxor : Operation.xor.exec ((f.push (.int (ofTruth p))).push (.int 1))
        = .proceed (f.push (.int (ofTruth (!p)))) := by
      rw [← xor_one]
      rfl
    exact ⟨_, .head (.operation one rfl rfl) (.single (.operation op rfl hxor)), rfl⟩

theorem moves_compare {k : Nat} {o : Comparison} {yes done : Label} {f : Frame} {a b : Int32}
    (test : (emitted events)[k]? = some (.jump (.pair o) yes))
    (zero : (emitted events)[k + 1]? = some (.other "iconst_0" []))
    (skip : (emitted events)[k + 2]? = some (.jump .always done))
    (one : (emitted events)[k + 3]? = some (.other "iconst_1" []))
    (yes_at : PlacedAt events yes (k + 3)) (done_at : PlacedAt events done (k + 4)) :
    ReflTransGen (Moves events) (k, (f.push (.int a)).push (.int b))
      (k + 4, f.push (.int (ofTruth (o.holds a b)))) := by
  rcases hholds : o.holds a b with _ | _
  · have htest : Moves events (k, (f.push (.int a)).push (.int b)) (k + 1, f) :=
      .proceed test (by simp [Opcode.exec, Frame.push, hholds])
    have hzero : Moves events (k + 1, f) (k + 2, f.push (.int 0)) := .operation zero rfl rfl
    have hskip : Moves events (k + 2, f.push (.int 0)) (k + 4, f.push (.int 0)) :=
      .branch skip rfl done_at
    exact .head htest (.head hzero (.single hskip))
  · have htest : Moves events (k, (f.push (.int a)).push (.int b)) (k + 3, f) :=
      .branch test (by simp [Opcode.exec, Frame.push, hholds]) yes_at
    have hone : Moves events (k + 3, f) (k + 4, f.push (.int 1)) := .operation one rfl rfl
    exact .head htest (.single hone)

theorem Expr.LiesAt.reaches {e : Expr} {i j : Nat} (h : e.LiesAt events t i j) {f : Frame}
    (hf : Agrees t vars f) : Reaches events (i, f) (Pushed j f) (e.value vars) := by
  induction h generalizing f with
  | int op => exact ⟨_, .single (.operation op (Operation.ofText?_ldc _) rfl), rfl⟩
  | @bool _ _ b op =>
    cases b with
    | false => exact ⟨_, .single (.operation op rfl rfl), rfl⟩
    | true => exact ⟨_, .single (.operation op rfl rfl), rfl⟩
  | @var i _ x s slot op =>
    have hexec : (Opcode.load s).exec f = .proceed (f.push (.int (vars x))) := by
      rw [Opcode.exec, hf x s slot]
    exact ⟨_, .single (.proceed op hexec), rfl⟩
  | neg operand op ih =>
    refine (ih hf).bind ?_
    rintro a _ rfl
    have hneg : Int32.ofInt (-a.toInt) = -a := by rw [Int32.ofInt_neg, Int32.ofInt_toInt]
    rw [UnaryOp.value, hneg]
    exact ⟨_, .single (.operation op rfl rfl), rfl⟩
  | not operand one op ih =>
    refine (ih hf).bind ?_
    rintro a _ rfl
    exact reaches_not one op
  | arith left right op ihl ihr =>
    refine (ihl hf).bind ?_
    rintro a _ rfl
    refine (ihr (hf.push _)).bind ?_
    rintro b _ rfl
    exact reaches_arith op
  | @compare i m k _ o l r yes done left right test zero skip one yes_at done_at ihl ihr =>
    refine (ihl hf).bind ?_
    rintro a _ rfl
    refine (ihr (hf.push _)).bind ?_
    rintro b _ rfl
    rw [BinaryOp.value, ← o.holds_eq]
    exact ⟨_, moves_compare test zero skip one yes_at done_at, rfl⟩

end Expressions

section Statements

variable {events : List Event} {t : SymbolTable} {w : World} {f : Frame} {c d : Nat × Frame}

/-- The frame shows the world. -/
def Shows (t : SymbolTable) (w : World) (f : Frame) : Prop :=
  f.output = w.output ∧ Agrees t w.vars f

theorem shows_start (t : SymbolTable) : Shows t .start .start := ⟨rfl, fun _ _ _ => rfl⟩

theorem Shows.store {x : String} {s : Slot} (h : Shows t w f) (hs : t.slot? x = some s)
    (v : Int32) : Shows t (w.set x v) (f.store s v) := by
  refine ⟨h.1, fun y r hr => ?_⟩
  by_cases hyx : y = x
  · subst hyx
    obtain rfl := Option.some.inj (hs.symm.trans hr)
    simp [World.set, Frame.store]
  · -- two variables do not share a slot
    have hrs : r ≠ s := by
      rintro rfl
      have hsame := SymbolTable.eq_of_slot_eq t.ascending (t.slot?_eq_some_iff.mp hr)
        (t.slot?_eq_some_iff.mp hs) rfl
      exact hyx (congrArg Binding.name hsame)
    simpa [World.set, Frame.store, hyx, hrs] using h.2 y r hr

theorem Shows.print (h : Shows t w f) (v : Int32) : Shows t (w.print v) (f.print v) :=
  ⟨congrArg (· ++ [v]) h.1, h.2⟩

/-- The `j`-th instruction is next, with a frame that shows the world. -/
def ShownAt (t : SymbolTable) (j : Nat) (w : World) (d : Nat × Frame) : Prop :=
  ∃ f, d = (j, f) ∧ Shows t w f

/-- A condition that fails leads to the label of its test, and one that holds past the test. -/
theorem Expr.LiesAt.test {e : Expr} {i m : Nat} {l : Label} {v : Int32}
    (h : e.LiesAt events t i m) (op : (emitted events)[m]? = some (.jump (.zero .eq) l))
    (hf : Agrees t w.vars f) (hv : e.value w.vars = .ok v) :
    (v = 0 → ∀ {j : Nat}, PlacedAt events l j → TransGen (Moves events) (i, f) (j, f))
      ∧ (v ≠ 0 → TransGen (Moves events) (i, f) (m + 1, f)) := by
  have hreaches := h.reaches hf
  rw [hv] at hreaches
  obtain ⟨_, hvalue, rfl⟩ := hreaches
  constructor
  · intro hzero j hl
    refine .tail' hvalue (.branch op ?_ hl)
    simp [Opcode.exec, Frame.push, Comparison.holds, hzero]
  · intro hnonzero
    refine .tail' hvalue (.proceed op ?_)
    simp [Opcode.exec, Frame.push, Comparison.holds, hnonzero]

theorem Moves.goto {k j : Nat} {l : Label} (op : (emitted events)[k]? = some (.jump .always l))
    (hl : PlacedAt events l j) (f : Frame) : Moves events (k, f) (j, f) :=
  .branch op rfl hl

theorem Expr.LiesAt.reaches_store {e : Expr} {i m : Nat} {x : String} {s : Slot}
    (h : e.LiesAt events t i m) (op : (emitted events)[m]? = some (.store s))
    (hs : t.slot? x = some s) (hw : Shows t w f) :
    Reaches events (i, f) (ShownAt t (m + 1)) ((e.value w.vars).map (w.set x)) := by
  refine reaches_map.mpr ((h.reaches hw.2).tail ?_)
  rintro v _ rfl
  exact ⟨(m + 1, f.store s v), .proceed op rfl, f.store s v, rfl, hw.store hs v⟩

mutual

theorem Stmt.Runs.reaches : ∀ {w : World} {s : Stmt} {r : Except Fault World}, s.Runs w r →
    ∀ {i j : Nat} {f : Frame}, s.LiesAt events t i j → Shows t w f →
      Reaches events (i, f) (ShownAt t j) r
  | _, _, _, .decl, _, _, _, .decl slot value op, hw => value.reaches_store op slot hw
  | _, _, _, .assign, _, _, _, .assign slot value op, hw => value.reaches_store op slot hw
  | _, _, _, .print, i, _, f, .print stream value op, hw => by
    have hstream : Moves events (i, f) (i + 1, f.push .stream) := .operation stream rfl rfl
    refine Reaches.head (reaches_map.mpr ?_) (.single hstream)
    refine (value.reaches (hw.2.push .stream)).tail ?_
    rintro v _ rfl
    exact ⟨(_, f.print v), .operation op rfl rfl, f.print v, rfl, hw.print v⟩
  | _, _, _, .ifYes cond nonzero branch, i, j, f,
      .ifElse cond_lies test yes_lie skip no_lie otherwise_at done_at, hw => by
    obtain ⟨-, hnonzero⟩ := cond_lies.test test hw.2 cond
    refine Reaches.head ((branch.reaches yes_lie hw).tail ?_) (hnonzero nonzero).to_reflTransGen
    rintro w' _ ⟨f', rfl, hw'⟩
    exact ⟨(j, f'), Moves.goto skip done_at f', f', rfl, hw'⟩
  | _, _, _, .ifNo cond branch, i, j, f,
      .ifElse cond_lies test yes_lie skip no_lie otherwise_at done_at, hw => by
    obtain ⟨hzero, -⟩ := cond_lies.test test hw.2 cond
    exact (branch.reaches no_lie hw).head (hzero rfl otherwise_at).to_reflTransGen
  | _, _, _, .ifFault cond, i, j, f, .ifElse cond_lies test _ _ _ _ _, hw =>
    (cond_lies.reaches hw.2).fault cond
  | _, _, _, .loopDone cond, i, _, f, .loop again_at cond_lies test body_lie back done_at, hw => by
    obtain ⟨hzero, -⟩ := cond_lies.test test hw.2 cond
    exact ⟨_, (hzero rfl done_at).to_reflTransGen, f, rfl, hw⟩
  | _, _, _, .loopAgain cond nonzero pass again, i, _, f,
      lies@(.loop again_at cond_lies test body_lie back done_at), hw => by
    obtain ⟨-, hnonzero⟩ := cond_lies.test test hw.2 cond
    obtain ⟨_, hpass, f', rfl, hw'⟩ := pass.reaches body_lie hw
    have hback := hpass.tail (Moves.goto back again_at f')
    exact (again.reaches lies hw').head ((hnonzero nonzero).to_reflTransGen.trans hback)
  | _, _, _, .loopFault cond nonzero pass, i, _, f,
      .loop again_at cond_lies test body_lie back done_at, hw => by
    obtain ⟨-, hnonzero⟩ := cond_lies.test test hw.2 cond
    exact ((pass.reaches body_lie hw).head (hnonzero nonzero).to_reflTransGen).fault rfl
  | _, _, _, .condFault cond, i, _, f, .loop _ cond_lies _ _ _ _, hw =>
    (cond_lies.reaches hw.2).fault cond

theorem Stmt.RunsAll.reaches : ∀ {w : World} {ss : List Stmt} {r : Except Fault World},
    Stmt.RunsAll w ss r → ∀ {i j : Nat} {f : Frame}, Stmt.AllLieAt events t i ss j → Shows t w f →
      Reaches events (i, f) (ShownAt t j) r
  | _, _, _, .nil, i, _, f, .nil, hw => ⟨_, .refl, f, rfl, hw⟩
  | _, _, _, .cons first rest, i, j, f, .cons first_lies rest_lie, hw => by
    obtain ⟨_, hfirst, f', rfl, hw'⟩ := first.reaches first_lies hw
    exact (rest.reaches rest_lie hw').head hfirst
  | _, _, _, .consFault first, i, j, f, .cons first_lies rest_lie, hw =>
    (first.reaches first_lies hw).fault rfl

end

end Statements

section Halting

variable {events : List Event} {t : SymbolTable} {c d e : Nat × Frame}

/-- No run goes on for ever. -/
def Halts (events : List Event) (c : Nat × Frame) : Prop :=
  Acc (fun d c => TransGen (Moves events) c d) c

theorem Halts.later (h : Halts events c) (hmoves : ReflTransGen (Moves events) c d) :
    Halts events d := by
  rcases Relation.reflTransGen_iff_eq_or_transGen.mp hmoves with rfl | hmoves
  · exact h
  · exact h.inv hmoves

theorem not_moves {i : Nat} {f : Frame} {op : Opcode} (hop : (emitted events)[i]? = some op)
    (hstop : op.exec f = .leave ∨ op.exec f = .trap) : ¬ Moves events (i, f) d := by
  intro hmove
  cases hmove with
  | proceed opcode exec =>
    obtain rfl := Option.some.inj (hop.symm.trans opcode)
    simp [exec] at hstop
  | branch opcode exec place =>
    obtain rfl := Option.some.inj (hop.symm.trans opcode)
    simp [exec] at hstop

theorem not_moves_return {i : Nat} {f : Frame}
    (hop : (emitted events)[i]? = some (.other "return" [])) : ¬ Moves events (i, f) d :=
  not_moves hop (Or.inl rfl)

theorem halts_of_return (once : PlacedOnce events) {j : Nat} {f : Frame}
    (hmoves : ReflTransGen (Moves events) c (j, f))
    (hop : (emitted events)[j]? = some (.other "return" [])) : Halts events c := by
  have hacc : Acc (fun d c => Moves events c d) c := by
    induction hmoves using ReflTransGen.head_induction_on with
    | refl => exact ⟨_, fun d hd => absurd hd (not_moves_return hop)⟩
    | head hmove _ ih => exact ⟨_, fun d hd => hmove.unique once hd ▸ ih⟩
  have hswap : (fun d c => TransGen (Moves events) c d) = TransGen fun d c => Moves events c d := by
    funext d c
    exact propext Relation.transGen_swap.symm
  rw [Halts, hswap]
  exact hacc.transGen

/-- The machine stops in one place only. -/
theorem eq_of_stopped (once : PlacedOnce events) (hd : ReflTransGen (Moves events) c d)
    (he : ReflTransGen (Moves events) c e) (hdstop : ∀ x, ¬ Moves events d x)
    (hestop : ∀ x, ¬ Moves events e x) : d = e := by
  have hunique : Relator.RightUnique (Moves events) := fun _ _ _ h h' => h.unique once h'
  rcases ReflTransGen.total_of_right_unique hunique hd he with hde | hed
  · rcases hde.cases_head with rfl | ⟨x, hx, -⟩
    · rfl
    · exact absurd hx (hdstop x)
  · rcases hed.cases_head with rfl | ⟨x, hx, -⟩
    · rfl
    · exact absurd hx (hestop x)

/-- A loop that the machine does not run for ever has an outcome, if each pass has. -/
theorem exists_runs_loop {i m k : Nat} {span : Span} {cond : Expr} {body : List Stmt}
    {again done : Label} (again_at : PlacedAt events again i) (cond_lies : cond.LiesAt events t i m)
    (test : (emitted events)[m]? = some (.jump (.zero .eq) done))
    (body_lie : Stmt.AllLieAt events t (m + 1) body k)
    (back : (emitted events)[k]? = some (.jump .always again))
    (hbody : ∀ {w : World} {f : Frame}, Shows t w f → Halts events (m + 1, f) →
      ∃ r, Stmt.RunsAll w body r) {w : World} {f : Frame} (hw : Shows t w f)
    (hhalts : Halts events (i, f)) : ∃ r, (Stmt.loop span cond body).Runs w r := by
  generalize hc : (i, f) = c at hhalts
  induction hhalts generalizing w f with
  | intro c hbefore ih =>
    subst hc
    rcases hv : cond.value w.vars with fault | v
    · exact ⟨_, .condFault hv⟩
    obtain ⟨-, hnonzero⟩ := cond_lies.test test hw.2 hv
    by_cases hzero : v = 0
    · exact ⟨_, .loopDone (hzero ▸ hv)⟩
    obtain ⟨r, hpass⟩ := hbody hw (hbefore _ (hnonzero hzero))
    rcases r with fault | w'
    · exact ⟨_, .loopFault hv hzero hpass⟩
    -- the pass ends before the jump back, so the next round is later in the run
    obtain ⟨_, hmoves, f', rfl, hw'⟩ := hpass.reaches body_lie hw
    have hround : TransGen (Moves events) (i, f) (i, f') :=
      ((hnonzero hzero).trans_left hmoves).tail (Moves.goto back again_at f')
    obtain ⟨r, hagain⟩ := ih _ hround hw' rfl
    exact ⟨r, .loopAgain hv hzero hpass hagain⟩

mutual

theorem Stmt.LiesAt.exists_runs : ∀ {s : Stmt} {i j : Nat}, s.LiesAt events t i j →
    ∀ {w : World} {f : Frame}, Shows t w f → Halts events (i, f) → ∃ r, s.Runs w r
  | _, _, _, .decl .., _, _, _, _ => ⟨_, .decl⟩
  | _, _, _, .assign .., _, _, _, _ => ⟨_, .assign⟩
  | _, _, _, .print .., _, _, _, _ => ⟨_, .print⟩
  | .ifElse _ cond _ _, i, _, .ifElse cond_lies test yes_lie skip no_lie otherwise_at done_at,
      w, f, hw, hhalts => by
    rcases hv : cond.value w.vars with fault | v
    · exact ⟨_, .ifFault hv⟩
    obtain ⟨hfails, hholds⟩ := cond_lies.test test hw.2 hv
    by_cases hzero : v = 0
    · have hlater := hhalts.later (hfails hzero otherwise_at).to_reflTransGen
      obtain ⟨r, hr⟩ := no_lie.exists_runs hw hlater
      exact ⟨r, .ifNo (hzero ▸ hv) hr⟩
    · obtain ⟨r, hr⟩ := yes_lie.exists_runs hw (hhalts.later (hholds hzero).to_reflTransGen)
      exact ⟨r, .ifYes hv hzero hr⟩
  | _, _, _, .loop again_at cond_lies test body_lie back done_at, _, _, hw, hhalts =>
    exists_runs_loop again_at cond_lies test body_lie back
      (fun hw' hhalts' => body_lie.exists_runs hw' hhalts') hw hhalts

theorem Stmt.AllLieAt.exists_runs : ∀ {ss : List Stmt} {i j : Nat},
    Stmt.AllLieAt events t i ss j → ∀ {w : World} {f : Frame}, Shows t w f →
    Halts events (i, f) → ∃ r, Stmt.RunsAll w ss r
  | _, _, _, .nil, _, _, _, _ => ⟨_, .nil⟩
  | _, _, _, .cons first rest, w, f, hw, hhalts => by
    obtain ⟨r, hfirst⟩ := first.exists_runs hw hhalts
    rcases r with fault | w'
    · exact ⟨_, .consFault hfirst⟩
    obtain ⟨_, hmoves, f', rfl, hw'⟩ := hfirst.reaches first hw
    obtain ⟨r, hrest⟩ := rest.exists_runs hw' (hhalts.later hmoves)
    exact ⟨r, .cons hfirst hrest⟩

end

end Halting

section Names

variable {events : List Event} {t : SymbolTable} {x : String}

theorem Expr.LiesAt.exists_slot {e : Expr} {i j : Nat} (h : e.LiesAt events t i j)
    (hx : x ∈ e.names) : ∃ s, t.slot? x = some s := by
  induction h with
  | int op => simp [names] at hx
  | bool op => simp [names] at hx
  | @var _ _ y s slot op =>
    obtain rfl : x = y := by simpa [names] using hx
    exact ⟨s, slot⟩
  | neg operand op ih => exact ih hx
  | not operand one op ih => exact ih hx
  | arith left right op ihl ihr => exact (List.mem_append.mp hx).elim ihl ihr
  | compare left right test zero skip one yes_at done_at ihl ihr =>
    exact (List.mem_append.mp hx).elim ihl ihr

mutual

theorem Stmt.LiesAt.exists_slot : ∀ {s : Stmt} {i j : Nat}, s.LiesAt events t i j →
    x ∈ s.names → ∃ s, t.slot? x = some s
  | _, _, _, .decl slot value op, hx => by
    rcases List.mem_cons.mp hx with rfl | hx
    · exact ⟨_, slot⟩
    · exact value.exists_slot hx
  | _, _, _, .assign slot value op, hx => by
    rcases List.mem_cons.mp hx with rfl | hx
    · exact ⟨_, slot⟩
    · exact value.exists_slot hx
  | _, _, _, .print stream value op, hx => value.exists_slot hx
  | _, _, _, .ifElse cond test yes_lie skip no_lie otherwise_at done_at, hx => by
    rcases List.mem_append.mp hx with hx | hx
    · exact (List.mem_append.mp hx).elim cond.exists_slot yes_lie.exists_slot
    · exact no_lie.exists_slot hx
  | _, _, _, .loop again_at cond test body_lie back done_at, hx =>
    (List.mem_append.mp hx).elim cond.exists_slot body_lie.exists_slot

theorem Stmt.AllLieAt.exists_slot : ∀ {ss : List Stmt} {i j : Nat},
    Stmt.AllLieAt events t i ss j → x ∈ Stmt.namesAll ss → ∃ s, t.slot? x = some s
  | _, _, _, .nil, hx => by simp [Stmt.namesAll] at hx
  | _, _, _, .cons first rest, hx =>
    (List.mem_append.mp hx).elim first.exists_slot rest.exists_slot

end

end Names

section Programs

variable {p : Program} {t : SymbolTable} {n : Nat} {g : BlockGraph} {events : List Event}

theorem Program.returns_of_runs (hf : Finished events g) (hcode : p.code t n = events.map .ok)
    {w : World} (hruns : p.Runs (.ok w)) : ∃ f, g.Returns .start f ∧ Shows t w f := by
  obtain ⟨j, lie, hreturn, -⟩ := Program.liesAt hcode
  obtain ⟨_, hmoves, f, rfl, hw⟩ := hruns.reaches lie (shows_start t)
  exact ⟨f, hf.returns_iff.mpr ⟨j, hmoves, hreturn⟩, hw⟩

theorem Program.runs_of_returns (hf : Finished events g) (hcode : p.code t n = events.map .ok)
    (htruth : ¬ p.Runs (.error .notTruth)) {f : Frame} (hreturns : g.Returns .start f) :
    ∃ w, p.Runs (.ok w) ∧ Shows t w f := by
  obtain ⟨j, lie, hreturn, -⟩ := Program.liesAt hcode
  obtain ⟨k, hmoves, hstop⟩ := hf.returns_iff.mp hreturns
  obtain ⟨r, hruns⟩ := lie.exists_runs (shows_start t) (halts_of_return hf.once hmoves hstop)
  have hreaches := hruns.reaches lie (shows_start t)
  rcases r with fault | w
  · cases fault with
    | divisionByZero =>
      -- the run that should have trapped came to `return`
      obtain ⟨i, f', op, htraps, hop, htrap⟩ := hreaches
      have heq := eq_of_stopped hf.once hmoves htraps (fun _ => not_moves_return hstop)
        fun _ => not_moves hop (Or.inr htrap)
      obtain ⟨rfl, rfl⟩ := Prod.mk.inj heq
      obtain rfl := Option.some.inj (hstop.symm.trans hop)
      cases htrap
    | notTruth => exact absurd hruns htruth
  · obtain ⟨_, hmoves', f', rfl, hw⟩ := hreaches
    have heq := eq_of_stopped hf.once hmoves hmoves' (fun _ => not_moves_return hstop)
      fun _ => not_moves_return hreturn
    obtain ⟨rfl, rfl⟩ := Prod.mk.inj heq
    exact ⟨w, hruns, hw⟩

/-- A lowered program ends normally exactly if its method comes to `return`, and then both have
printed the same and each variable has the value that its slot holds. -/
theorem lower_preserves_meaning (h : p.lower t n = .ok g) (htruth : ¬ p.Runs (.error .notTruth))
    (o : List Int32) (v : String → Int32) :
    (∃ w, p.Runs (.ok w) ∧ w.output = o ∧ ∀ x ∈ p.names, w.vars x = v x)
      ↔ ∃ f, g.Returns .start f ∧ f.output = o
        ∧ ∀ x ∈ p.names, ∃ s, t.slot? x = some s ∧ f.slots s = v x := by
  obtain ⟨size, events, -, hcode, hbuild⟩ := Program.lower_ok h
  have hf := BlockGraph.finished_of_build hbuild
  constructor
  · rintro ⟨w, hruns, ho, hv⟩
    obtain ⟨f, hreturns, hw⟩ := Program.returns_of_runs hf hcode hruns
    refine ⟨f, hreturns, hw.1.trans ho, fun x hx => ?_⟩
    obtain ⟨j, lie, -⟩ := Program.liesAt hcode
    obtain ⟨s, hs⟩ := lie.exists_slot hx
    exact ⟨s, hs, (hw.2 x s hs).trans (hv x hx)⟩
  · rintro ⟨f, hreturns, ho, hv⟩
    obtain ⟨w, hruns, hw⟩ := Program.runs_of_returns hf hcode htruth hreturns
    refine ⟨w, hruns, hw.1.symm.trans ho, fun x hx => ?_⟩
    obtain ⟨s, hs, hsv⟩ := hv x hx
    exact (hw.2 x s hs).symm.trans hsv

/-- Three rounds of the loop, the last of which adds nothing to the number. -/
theorem lower_preserves_meaning_countdown : ∃ g,
    countdown.lower countdown.symbols 0 = .ok g ∧ ¬ countdown.Runs (.error .notTruth)
      ∧ ∃ f, g.Returns .start f ∧ f.output = [4, 3, 1]
        ∧ ∀ x ∈ countdown.names, ∃ s, countdown.symbols.slot? x = some s ∧ f.slots s = 0 := by
  have hg : countdown.lower countdown.symbols 0 = .ok _ := rfl
  have htruth := countdown.not_runs_notTruth rfl
  have hloop : ∃ w, countdown.Runs (.ok w) ∧ w.output = [4, 3, 1] ∧ w.vars "n" = 0 := by
    refine ⟨_, .cons .decl (.cons (.loopAgain rfl (by decide) (.cons .print (.cons .assign .nil))
      (.loopAgain rfl (by decide) (.cons .print (.cons .assign .nil))
        (.loopAgain rfl (by decide) (.cons .print (.cons .assign .nil)) (.loopDone rfl))))
      .nil), ?_, ?_⟩
    · rfl
    · rfl
  obtain ⟨w, hruns, hout, hn⟩ := hloop
  have hnames : ∀ x ∈ countdown.names, x = "n" := by decide
  refine ⟨_, hg, htruth, (lower_preserves_meaning hg htruth [4, 3, 1] fun _ => 0).mp
    ⟨w, hruns, hout, fun x hx => ?_⟩⟩
  rw [hnames x hx, hn]

end Programs

end SlotColoring
