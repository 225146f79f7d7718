import SlotColoring.Program.Lowering
import SlotColoring.Proofs.Layout

/-!
# Where the code of a program lies

The code of each part of a lowered program lies in one piece among the events (`CodeAt`).  What the
machine sees of it are the instructions and the places of the labels, without their names: an
expression or a statement lies between two instructions, and its parts lie inside as its syntax
tells (`Expr.LiesAt`, `Stmt.LiesAt`).  Everything said about code below is by induction on that.
-/

namespace SlotColoring

theorem Code.eq_map_of_events : ∀ {code : Code} {es : List Event}, Code.events code = .ok es →
    code = es.map .ok
  | [], es, h => by
    rw [← Except.ok.inj h]
    rfl
  | .error u :: code, es, h => by
    simp [Code.events] at h
  | .ok e :: code, es, h => by
    simp only [Code.events] at h
    split at h
    · rename_i fs hfs
      rw [← Except.ok.inj h, List.map_cons, ← eq_map_of_events hfs]
    · simp at h

theorem Program.lower_ok {p : Program} {t : SymbolTable} {n : Nat} {g : BlockGraph}
    (h : p.lower t n = .ok g) : ∃ depth events, p.maxStackDepth = .ok depth
      ∧ p.code t n = events.map .ok
      ∧ BlockGraph.build ⟨p.source, p.className, depth, t.localCount⟩ events = .ok g := by
  unfold Program.lower at h
  split at h
  · simp at h
  · rename_i depth hdepth
    split at h
    · simp at h
    · rename_i events hevents
      split at h
      · simp at h
      · rename_i g' hg'
        obtain rfl := Except.ok.inj h
        exact ⟨depth, events, hdepth, Code.eq_map_of_events hevents, hg'⟩

namespace Builder

theorem head_openBlock (b : Builder) (label : Option Label) : (b.openBlock label).head = b.head :=
  rfl

theorem head_push (b : Builder) (op : Opcode) : (b.push op).head = b.head := by
  unfold push
  split <;> rfl

theorem head_addJump (b : Builder) (c : Condition) (l : Label) :
    (b.addJump c l).head = b.head := by
  unfold addJump
  rw [head_openBlock]
  split <;> exact b.head_push (.jump c l)

theorem head_feed {b b' : Builder} {e : Event} (h : b.feed e = .ok b') : b'.head = b.head := by
  cases e with
  | label l =>
    simp only [feed, addLabel] at h
    split at h
    · simp at h
    · rw [← Except.ok.inj h]
      rfl
  | jump c l =>
    rw [← Except.ok.inj h, head_addJump]
  | emit op =>
    rw [← Except.ok.inj h]
    cases op with
    | jump c l => exact b.head_addJump c l
    | load s => exact b.head_push _
    | store s => exact b.head_push _
    | other m operands => exact b.head_push _

theorem head_feedAll : ∀ (es : List Event) {b b' : Builder}, b.feedAll es = .ok b' →
    b'.head = b.head
  | [], b, b', h => by
    rw [← Except.ok.inj h]
  | e :: es, b, b', h => by
    simp only [feedAll] at h
    split at h
    · rename_i b₁ hb₁
      rw [head_feedAll es h, head_feed hb₁]
    · simp at h

end Builder

theorem BlockGraph.head_of_build {head : Head} {events : List Event} {g : BlockGraph}
    (h : BlockGraph.build head events = .ok g) : g.head = head := by
  unfold BlockGraph.build at h
  split at h
  · rename_i b hb
    unfold Builder.finish at h
    split at h
    · rw [← Except.ok.inj h]
      exact Builder.head_feedAll events hb
    · simp at h
  · simp at h

/-- The code lies among the events from the `i`-th instruction up to the `j`-th. -/
def CodeAt (events : List Event) (i : Nat) (code : Code) (j : Nat) : Prop :=
  ∃ before es after, events = before ++ es ++ after ∧ code = es.map .ok
    ∧ (emitted before).length = i ∧ (emitted (before ++ es)).length = j

namespace CodeAt

variable {events : List Event} {i j : Nat} {code code' : Code}

theorem whole {code : Code} (h : code = events.map .ok) :
    CodeAt events 0 code (emitted events).length :=
  ⟨[], events, [], by simp, h, rfl, rfl⟩

theorem nil (h : CodeAt events i [] j) : j = i := by
  obtain ⟨before, es, after, -, hes, rfl, rfl⟩ := h
  obtain rfl : es = [] := by simpa using hes.symm
  rw [List.append_nil]

theorem append (h : CodeAt events i (code ++ code') j) :
    ∃ m, CodeAt events i code m ∧ CodeAt events m code' j := by
  obtain ⟨before, es, after, rfl, hes, rfl, rfl⟩ := h
  obtain ⟨as, bs, rfl, rfl, rfl⟩ := List.map_eq_append_iff.mp hes.symm
  refine ⟨(emitted (before ++ as)).length, ?_, ?_⟩
  · exact ⟨before, as, bs ++ after, by simp, rfl, rfl, rfl⟩
  · exact ⟨before ++ as, bs, after, by simp, rfl, rfl, by simp⟩

theorem not_error {u : Undeclared} : ¬ CodeAt events i (.error u :: code) j := by
  rintro ⟨before, es, after, -, hes, -, -⟩
  cases es <;> simp at hes

theorem cons {e : Event} (h : CodeAt events i (.ok e :: code) j) :
    ∃ before after, events = before ++ e :: after ∧ (emitted before).length = i
      ∧ CodeAt events (emitted (before ++ [e])).length code j := by
  obtain ⟨before, es, after, rfl, hes, rfl, rfl⟩ := h
  cases es with
  | nil => simp at hes
  | cons e' es =>
    simp only [List.map_cons, List.cons.injEq, Except.ok.injEq] at hes
    obtain ⟨rfl, rfl⟩ := hes
    refine ⟨before, es ++ after, by simp, rfl, ?_⟩
    exact ⟨before ++ [e], es, after, by simp, rfl, rfl, by simp⟩

theorem emit {e : Event} {op : Opcode} (he : e.opcode? = some op)
    (h : CodeAt events i (.ok e :: code) j) :
    (emitted events)[i]? = some op ∧ CodeAt events (i + 1) code j := by
  obtain ⟨before, after, rfl, rfl, hrest⟩ := h.cons
  have hcons : emitted (e :: after) = op :: emitted after := by simp [emitted, he]
  have hone : (emitted (before ++ [e])).length = (emitted before).length + 1 := by
    simp [emitted, he]
  refine ⟨?_, hone ▸ hrest⟩
  rw [emitted_append, hcons, List.getElem?_append_right (Nat.le_refl _), Nat.sub_self]
  rfl

theorem label {l : Label} (h : CodeAt events i (Code.label l :: code) j) :
    PlacedAt events l i ∧ CodeAt events i code j := by
  obtain ⟨before, after, hsplit, rfl, hrest⟩ := h.cons
  have hsame : emitted (before ++ [.label l]) = emitted before := by
    simp [emitted, Event.opcode?]
  exact ⟨⟨before, after, hsplit, rfl⟩, hsame ▸ hrest⟩

theorem instruction {m : String} {operands : List String}
    (h : CodeAt events i (Code.instruction m operands :: code) j) :
    (emitted events)[i]? = some (.other m operands) ∧ CodeAt events (i + 1) code j :=
  h.emit rfl

theorem jump {c : Condition} {l : Label} (h : CodeAt events i (Code.jump c l :: code) j) :
    (emitted events)[i]? = some (.jump c l) ∧ CodeAt events (i + 1) code j :=
  h.emit rfl

theorem load {t : SymbolTable} {x : String} {span : Span}
    (h : CodeAt events i (Code.load t x span :: code) j) :
    ∃ s, t.slot? x = some s ∧ (emitted events)[i]? = some (.load s)
      ∧ CodeAt events (i + 1) code j := by
  rcases hs : t.slot? x with _ | s
  · simp only [Code.load, hs] at h
    exact absurd h not_error
  · simp only [Code.load, hs] at h
    exact ⟨s, rfl, h.emit rfl⟩

end CodeAt

/-- The code of the expression lies from the `i`-th instruction up to the `j`-th. -/
inductive Expr.LiesAt (events : List Event) (t : SymbolTable) : Nat → Expr → Nat → Prop
  | int {i : Nat} {span : Span} {v : Int32}
      (op : (emitted events)[i]? = some (.other "ldc" [toString v.toInt])) :
      LiesAt events t i (.int span v) (i + 1)
  | bool {i : Nat} {span : Span} {b : Bool}
      (op : (emitted events)[i]? = some (.other (if b then "iconst_1" else "iconst_0") [])) :
      LiesAt events t i (.bool span b) (i + 1)
  | var {i : Nat} {span : Span} {x : String} {s : Slot} (slot : t.slot? x = some s)
      (op : (emitted events)[i]? = some (.load s)) :
      LiesAt events t i (.var span x) (i + 1)
  | neg {i m : Nat} {span : Span} {e : Expr} (operand : LiesAt events t i e m)
      (op : (emitted events)[m]? = some (.other "ineg" [])) :
      LiesAt events t i (.unary span .neg e) (m + 1)
  | not {i m : Nat} {span : Span} {e : Expr} (operand : LiesAt events t i e m)
      (one : (emitted events)[m]? = some (.other "iconst_1" []))
      (op : (emitted events)[m + 1]? = some (.other "ixor" [])) :
      LiesAt events t i (.unary span .not e) (m + 2)
  | arith {i m k : Nat} {span : Span} {o : Arith} {l r : Expr} (left : LiesAt events t i l m)
      (right : LiesAt events t m r k) (op : (emitted events)[k]? = some (.other o.mnemonic [])) :
      LiesAt events t i (.binary span (.arith o) l r) (k + 1)
  | compare {i m k : Nat} {span : Span} {c : Comparison} {l r : Expr} {yes done : Label}
      (left : LiesAt events t i l m) (right : LiesAt events t m r k)
      (test : (emitted events)[k]? = some (.jump (.pair c) yes))
      (zero : (emitted events)[k + 1]? = some (.other "iconst_0" []))
      (skip : (emitted events)[k + 2]? = some (.jump .always done))
      (one : (emitted events)[k + 3]? = some (.other "iconst_1" []))
      (yes_at : PlacedAt events yes (k + 3)) (done_at : PlacedAt events done (k + 4)) :
      LiesAt events t i (.binary span (.compare c) l r) (k + 4)

mutual

/-- The code of the statement lies from the `i`-th instruction up to the `j`-th. -/
inductive Stmt.LiesAt (events : List Event) (t : SymbolTable) : Nat → Stmt → Nat → Prop
  | decl {i m : Nat} {span : Span} {x : String} {e : Expr} {s : Slot} (slot : t.slot? x = some s)
      (value : Expr.LiesAt events t i e m) (op : (emitted events)[m]? = some (.store s)) :
      Stmt.LiesAt events t i (.decl span x e) (m + 1)
  | assign {i m : Nat} {span : Span} {x : String} {e : Expr} {s : Slot} (slot : t.slot? x = some s)
      (value : Expr.LiesAt events t i e m) (op : (emitted events)[m]? = some (.store s)) :
      Stmt.LiesAt events t i (.assign span x e) (m + 1)
  | print {i m : Nat} {span : Span} {e : Expr}
      (stream : (emitted events)[i]?
        = some (.other "getstatic" ["java/lang/System/out", "Ljava/io/PrintStream;"]))
      (value : Expr.LiesAt events t (i + 1) e m)
      (op : (emitted events)[m]?
        = some (.other "invokevirtual" ["java/io/PrintStream/println(I)V"])) :
      Stmt.LiesAt events t i (.print span e) (m + 1)
  | ifElse {i m k j : Nat} {span : Span} {c : Expr} {yes no : List Stmt} {otherwise done : Label}
      (cond : Expr.LiesAt events t i c m)
      (test : (emitted events)[m]? = some (.jump (.zero .eq) otherwise))
      (yes_lie : Stmt.AllLieAt events t (m + 1) yes k)
      (skip : (emitted events)[k]? = some (.jump .always done))
      (no_lie : Stmt.AllLieAt events t (k + 1) no j)
      (otherwise_at : PlacedAt events otherwise (k + 1)) (done_at : PlacedAt events done j) :
      Stmt.LiesAt events t i (.ifElse span c yes no) j
  | loop {i m k : Nat} {span : Span} {c : Expr} {body : List Stmt} {again done : Label}
      (again_at : PlacedAt events again i) (cond : Expr.LiesAt events t i c m)
      (test : (emitted events)[m]? = some (.jump (.zero .eq) done))
      (body_lie : Stmt.AllLieAt events t (m + 1) body k)
      (back : (emitted events)[k]? = some (.jump .always again))
      (done_at : PlacedAt events done (k + 1)) :
      Stmt.LiesAt events t i (.loop span c body) (k + 1)

/-- The code of the statements lies from the `i`-th instruction up to the `j`-th. -/
inductive Stmt.AllLieAt (events : List Event) (t : SymbolTable) : Nat → List Stmt → Nat → Prop
  | nil {i : Nat} : Stmt.AllLieAt events t i [] i
  | cons {i m j : Nat} {s : Stmt} {ss : List Stmt} (first : Stmt.LiesAt events t i s m)
      (rest : Stmt.AllLieAt events t m ss j) : Stmt.AllLieAt events t i (s :: ss) j

end

section Lowered

variable {events : List Event} {t : SymbolTable}

theorem Expr.liesAt : ∀ (e : Expr) {i j n : Nat}, CodeAt events i (e.code t n).1 j →
    e.LiesAt events t i j
  | .int span v, i, j, n, h => by
    obtain ⟨op, h⟩ := h.instruction
    obtain rfl := h.nil
    exact .int op
  | .bool span b, i, j, n, h => by
    obtain ⟨op, h⟩ := h.instruction
    obtain rfl := h.nil
    exact .bool op
  | .var span x, i, j, n, h => by
    obtain ⟨s, slot, op, h⟩ := h.load
    obtain rfl := h.nil
    exact .var slot op
  | .unary span .neg e, i, j, n, h => by
    obtain ⟨m, he, h⟩ := h.append
    obtain ⟨op, h⟩ := h.instruction
    obtain rfl := h.nil
    exact .neg (e.liesAt he) op
  | .unary span .not e, i, j, n, h => by
    obtain ⟨m, he, h⟩ := h.append
    obtain ⟨one, h⟩ := h.instruction
    obtain ⟨op, h⟩ := h.instruction
    obtain rfl := h.nil
    exact .not (e.liesAt he) one op
  | .binary span (.arith o) l r, i, j, n, h => by
    obtain ⟨k, hlr, h⟩ := h.append
    obtain ⟨m, hl, hr⟩ := hlr.append
    obtain ⟨op, h⟩ := h.instruction
    obtain rfl := h.nil
    exact .arith (l.liesAt hl) (r.liesAt hr) op
  | .binary span (.compare c) l r, i, j, n, h => by
    obtain ⟨k, hlr, h⟩ := h.append
    obtain ⟨m, hl, hr⟩ := hlr.append
    obtain ⟨test, h⟩ := h.jump
    obtain ⟨zero, h⟩ := h.instruction
    obtain ⟨skip, h⟩ := h.jump
    obtain ⟨yes_at, h⟩ := h.label
    obtain ⟨one, h⟩ := h.instruction
    obtain ⟨done_at, h⟩ := h.label
    obtain rfl := h.nil
    exact .compare (l.liesAt hl) (r.liesAt hr) test zero skip one yes_at done_at

theorem CodeAt.store {span : Span} {x : String} {e : Expr} {i j n : Nat}
    (h : CodeAt events i (Stmt.storeCode t span x e n).1 j) :
    ∃ s m, t.slot? x = some s ∧ e.LiesAt events t i m
      ∧ (emitted events)[m]? = some (.store s) ∧ j = m + 1 := by
  unfold Stmt.storeCode at h
  split at h
  · exact absurd h not_error
  · rename_i s slot
    obtain ⟨m, value, h⟩ := h.append
    obtain ⟨op, h⟩ := h.emit rfl
    exact ⟨s, m, slot, e.liesAt value, op, h.nil⟩

mutual

theorem Stmt.liesAt : ∀ (s : Stmt) {i j n : Nat}, CodeAt events i (s.code t n).1 j →
    s.LiesAt events t i j
  | .decl span x e, i, j, n, h => by
    obtain ⟨s, m, slot, value, op, rfl⟩ := CodeAt.store h
    exact .decl slot value op
  | .assign span x e, i, j, n, h => by
    obtain ⟨s, m, slot, value, op, rfl⟩ := CodeAt.store h
    exact .assign slot value op
  | .print span e, i, j, n, h => by
    obtain ⟨m, hfirst, h⟩ := h.append
    obtain ⟨stream, value⟩ := hfirst.instruction
    obtain ⟨op, h⟩ := h.instruction
    obtain rfl := h.nil
    exact .print stream (e.liesAt value) op
  | .ifElse span c yes no, i, j, n, h => by
    obtain ⟨j', h, hdone⟩ := h.append
    obtain ⟨k, h, hno⟩ := h.append
    obtain ⟨m, cond, h⟩ := h.append
    obtain ⟨test, hyes⟩ := h.jump
    obtain ⟨skip, hno⟩ := hno.jump
    obtain ⟨otherwise_at, hno⟩ := hno.label
    obtain ⟨done_at, hdone⟩ := hdone.label
    obtain rfl := hdone.nil
    exact .ifElse (c.liesAt cond) test (Stmt.allLieAt yes hyes) skip (Stmt.allLieAt no hno)
      otherwise_at done_at
  | .loop span c body, i, j, n, h => by
    obtain ⟨k, h, hback⟩ := h.append
    obtain ⟨m, h, hbody⟩ := h.append
    obtain ⟨again_at, cond⟩ := h.label
    obtain ⟨test, hbody⟩ := hbody.jump
    obtain ⟨back, hback⟩ := hback.jump
    obtain ⟨done_at, hback⟩ := hback.label
    obtain rfl := hback.nil
    exact .loop again_at (c.liesAt cond) test (Stmt.allLieAt body hbody) back done_at

theorem Stmt.allLieAt : ∀ (ss : List Stmt) {i j n : Nat},
    CodeAt events i (Stmt.codeAll t ss n).1 j → Stmt.AllLieAt events t i ss j
  | [], i, j, n, h => by
    obtain rfl := h.nil
    exact .nil
  | s :: ss, i, j, n, h => by
    obtain ⟨m, first, rest⟩ := h.append
    exact .cons (s.liesAt first) (Stmt.allLieAt ss rest)

end

/-- The code of a program is that of its statements and `return`. -/
theorem Program.liesAt {p : Program} {n : Nat} (h : p.code t n = events.map .ok) :
    ∃ j, Stmt.AllLieAt events t 0 p.body j ∧ (emitted events)[j]? = some (.other "return" [])
      ∧ (emitted events).length = j + 1 := by
  obtain ⟨j, hbody, hreturn⟩ := (CodeAt.whole h).append
  obtain ⟨op, hreturn⟩ := hreturn.instruction
  exact ⟨j, Stmt.allLieAt p.body hbody, op, hreturn.nil⟩

end Lowered

/-- Counts down from three, printing each number, with one added to it if it is above one. -/
def countdown : Program where
  source := "countdown.txt"
  className := "Countdown"
  body :=
    let here := Span.nowhere
    let n := Expr.var here "n"
    let one := Expr.int here 1
    [.decl here "n" (.int here 3),
      .loop here (.unary here .not (.binary here (.compare .lt) n one))
        [.print here (.binary here (.arith .add) n (.binary here (.compare .lt) one n)),
          .assign here "n" (.binary here (.arith .sub) n one)]]

end SlotColoring
