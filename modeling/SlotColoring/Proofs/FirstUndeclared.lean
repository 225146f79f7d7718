import SlotColoring.Proofs.CompileOutcome

/-!
# The first name without a slot

A program mentions its names in the order in which it is read: the target of a declaration or an
assignment before the expression, a condition before the bodies that depend on it.  Lowering goes
through the program in this order, and what it leaves in the code for the first name without a slot
is what it reports (`Program.lower_eq_undeclared_iff`).  So nothing that stands after that mention
has any influence (`Stmt.SameUntil.agreeUntil`).
-/

namespace SlotColoring

section Mentions

/-- The names of an expression from left to right, each with its span. -/
def Expr.mentions : Expr → List (String × Span)
  | .int .. => []
  | .bool .. => []
  | .var span x => [(x, span)]
  | .unary _ _ e => e.mentions
  | .binary _ _ l r => l.mentions ++ r.mentions

mutual

/-- The names of a statement in the order in which they are looked up; the target of a declaration
or an assignment comes first, with the span of the statement. -/
def Stmt.mentions : Stmt → List (String × Span)
  | .decl span x e => (x, span) :: e.mentions
  | .assign span x e => (x, span) :: e.mentions
  | .print _ e => e.mentions
  | .ifElse _ c yes no => c.mentions ++ Stmt.mentionsAll yes ++ Stmt.mentionsAll no
  | .loop _ c body => c.mentions ++ Stmt.mentionsAll body

/-- The names of some statements one after the other. -/
def Stmt.mentionsAll : List Stmt → List (String × Span)
  | [] => []
  | s :: ss => s.mentions ++ Stmt.mentionsAll ss

end

/-- The variables that a program mentions, each with the span that is blamed for it. -/
def Program.mentions (p : Program) : List (String × Span) := Stmt.mentionsAll p.body

theorem Expr.names_eq : ∀ e : Expr, e.names = e.mentions.map Prod.fst
  | .int .. => rfl
  | .bool .. => rfl
  | .var .. => rfl
  | .unary _ _ e => e.names_eq
  | .binary _ _ l r => by rw [names, mentions, List.map_append, l.names_eq, r.names_eq]

mutual

theorem Stmt.names_eq : ∀ s : Stmt, s.names = s.mentions.map Prod.fst
  | .decl _ _ e => by rw [names, mentions, List.map_cons, e.names_eq]
  | .assign _ _ e => by rw [names, mentions, List.map_cons, e.names_eq]
  | .print _ e => by rw [names, mentions, e.names_eq]
  | .ifElse _ c yes no => by
    rw [names, mentions, List.map_append, List.map_append, c.names_eq, Stmt.namesAll_eq yes,
      Stmt.namesAll_eq no]
  | .loop _ c body => by rw [names, mentions, List.map_append, c.names_eq, Stmt.namesAll_eq body]

theorem Stmt.namesAll_eq : ∀ ss : List Stmt, Stmt.namesAll ss = (Stmt.mentionsAll ss).map Prod.fst
  | [] => rfl
  | s :: ss => by
    rw [namesAll, mentionsAll, List.map_append, s.names_eq, Stmt.namesAll_eq ss]

end

theorem Program.names_eq (p : Program) : p.names = p.mentions.map Prod.fst :=
  Stmt.namesAll_eq p.body

end Mentions

section Reported

variable {t : SymbolTable} {u : Undeclared}

/-- What is reported for a mention, if the name has no slot. -/
def SymbolTable.report (t : SymbolTable) (m : String × Span) : Option Undeclared :=
  match t.slot? m.1 with
  | none => some ⟨m.1, m.2⟩
  | some _ => none

namespace Code

/-- The first name that the code could not find a slot for. -/
def reported? (code : Code) : Option Undeclared :=
  code.findSome? fun
    | .error u => some u
    | .ok _ => none

@[simp]
theorem reported?_append (a b : Code) : (a ++ b).reported? = a.reported?.or b.reported? :=
  List.findSome?_append

@[simp]
theorem reported?_nil : reported? [] = none := rfl

@[simp]
theorem reported?_ok (e : Event) (code : Code) : reported? (.ok e :: code) = code.reported? := rfl

@[simp]
theorem reported?_instruction (m : String) (operands : List String) (code : Code) :
    reported? (instruction m operands :: code) = code.reported? := rfl

@[simp]
theorem reported?_jump (c : Condition) (l : Label) (code : Code) :
    reported? (jump c l :: code) = code.reported? := rfl

@[simp]
theorem reported?_label (l : Label) (code : Code) :
    reported? (label l :: code) = code.reported? := rfl

theorem events_eq_error_iff (code : Code) : code.events = .error u ↔ code.reported? = some u := by
  fun_induction events code with
  | case1 => simp [reported?]
  | case2 v code => simp [reported?]
  | case3 e code es hes ih =>
    rw [hes] at ih
    rw [reported?_ok, ← ih]
    simp
  | case4 e code v hv ih =>
    rw [hv] at ih
    rw [reported?_ok, ← ih]

end Code

theorem Expr.reported?_code (t : SymbolTable) : ∀ (e : Expr) (n : Nat),
    Code.reported? (e.code t n).1 = e.mentions.findSome? t.report
  | .int .., n => rfl
  | .bool .., n => rfl
  | .var span x, n => by
    rw [code, mentions, List.findSome?_singleton, SymbolTable.report, Code.load]
    rcases t.slot? x with _ | slot <;> rfl
  | .unary _ .neg e, n => by
    simp [code, mentions, e.reported?_code]
  | .unary _ .not e, n => by
    simp [code, mentions, e.reported?_code]
  | .binary _ (.arith op) l r, n => by
    simp [code, mentions, l.reported?_code, r.reported?_code]
  | .binary _ (.compare c) l r, n => by
    simp [code, mentions, l.reported?_code, r.reported?_code]

theorem Stmt.reported?_storeCode (t : SymbolTable) (span : Span) (x : String) (e : Expr) (n : Nat) :
    Code.reported? (storeCode t span x e n).1 = ((x, span) :: e.mentions).findSome? t.report := by
  rw [storeCode, List.findSome?_cons, SymbolTable.report]
  rcases t.slot? x with _ | slot
  · -- without a slot for the target, nothing of the expression is in the code
    rfl
  · simp [e.reported?_code]

mutual

theorem Stmt.reported?_code (t : SymbolTable) : ∀ (s : Stmt) (n : Nat),
    Code.reported? (s.code t n).1 = s.mentions.findSome? t.report
  | .decl span x e, n => Stmt.reported?_storeCode t span x e n
  | .assign span x e, n => Stmt.reported?_storeCode t span x e n
  | .print _ e, n => by
    simp [code, mentions, e.reported?_code]
  | .ifElse _ c yes no, n => by
    simp [code, mentions, c.reported?_code, Stmt.reported?_codeAll t yes,
      Stmt.reported?_codeAll t no]
  | .loop _ c body, n => by
    simp [code, mentions, c.reported?_code, Stmt.reported?_codeAll t body]

theorem Stmt.reported?_codeAll (t : SymbolTable) : ∀ (ss : List Stmt) (n : Nat),
    Code.reported? (Stmt.codeAll t ss n).1 = (Stmt.mentionsAll ss).findSome? t.report
  | [], _ => rfl
  | s :: ss, n => by
    simp [codeAll, mentionsAll, s.reported?_code, Stmt.reported?_codeAll t ss]

end

theorem Program.lower_eq_undeclared_iff (p : Program) (t : SymbolTable) (n : Nat) :
    p.lower t n = .error (.undeclared u) ↔ p.mentions.findSome? t.report = some u := by
  have hcode : (p.code t n).reported? = p.mentions.findSome? t.report := by
    simp [code, mentions, Stmt.reported?_codeAll]
  rw [← hcode, ← Code.events_eq_error_iff]
  unfold lower
  rw [p.maxStackDepth_eq]
  rcases (p.code t n).events with v | es
  · simp
  · simp only [reduceCtorEq, iff_false]
    split <;> simp

theorem SymbolTable.report_eq_some_iff {m : String × Span} :
    t.report m = some u ↔ t.slot? m.1 = none ∧ u = ⟨m.1, m.2⟩ := by
  unfold report
  rcases t.slot? m.1 with _ | slot <;> simp [eq_comm]

theorem SymbolTable.report_eq_none_iff {m : String × Span} :
    t.report m = none ↔ t.slot? m.1 ≠ none := by
  unfold report
  rcases t.slot? m.1 with _ | slot <;> simp

end Reported

section Later

variable {α : Type*} {P : α → Prop} {l l' : List α}

/-- The lists agree up to some element that satisfies `P`, and this one included. -/
def AgreeUntil (P : α → Prop) (l l' : List α) : Prop :=
  ∃ before a after after', P a ∧ l = before ++ a :: after ∧ l' = before ++ a :: after'

namespace AgreeUntil

theorem of_mem {a : α} (h : a ∈ l) (ha : P a) : AgreeUntil P l l := by
  obtain ⟨before, after, hsplit⟩ := List.append_of_mem h
  exact ⟨before, a, after, after, ha, hsplit, hsplit⟩

theorem append_left (h : AgreeUntil P l l') (k : List α) : AgreeUntil P (k ++ l) (k ++ l') := by
  obtain ⟨before, a, after, after', ha, rfl, rfl⟩ := h
  exact ⟨k ++ before, a, after, after', ha, by simp, by simp⟩

theorem append_right (h : AgreeUntil P l l') (k k' : List α) :
    AgreeUntil P (l ++ k) (l' ++ k') := by
  obtain ⟨before, a, after, after', ha, rfl, rfl⟩ := h
  exact ⟨before, a, after ++ k, after' ++ k', ha, by simp, by simp⟩

end AgreeUntil

/-- The statements agree up to one with a mention that satisfies `P`: from there on they may differ,
both in what stands after it and, if it is in a condition, in the bodies that depend on it. -/
inductive Stmt.SameUntil (P : String × Span → Prop) : List Stmt → List Stmt → Prop
  | here {s : Stmt} {m : String × Span} (hm : m ∈ s.mentions) (hP : P m) (ss ss' : List Stmt) :
    SameUntil P (s :: ss) (s :: ss')
  | next (s : Stmt) {ss ss' : List Stmt} (h : SameUntil P ss ss') : SameUntil P (s :: ss) (s :: ss')
  | condition {c : Expr} {m : String × Span} (hm : m ∈ c.mentions) (hP : P m) (span span' : Span)
    (yes yes' no no' ss ss' : List Stmt) :
    SameUntil P (.ifElse span c yes no :: ss) (.ifElse span' c yes' no' :: ss')
  | inYes (c : Expr) {yes yes' : List Stmt} (h : SameUntil P yes yes') (span span' : Span)
    (no no' ss ss' : List Stmt) :
    SameUntil P (.ifElse span c yes no :: ss) (.ifElse span' c yes' no' :: ss')
  | inNo (c : Expr) (yes : List Stmt) {no no' : List Stmt} (h : SameUntil P no no')
    (span span' : Span) (ss ss' : List Stmt) :
    SameUntil P (.ifElse span c yes no :: ss) (.ifElse span' c yes no' :: ss')
  | test {c : Expr} {m : String × Span} (hm : m ∈ c.mentions) (hP : P m) (span span' : Span)
    (body body' ss ss' : List Stmt) :
    SameUntil P (.loop span c body :: ss) (.loop span' c body' :: ss')
  | inBody (c : Expr) {body body' : List Stmt} (h : SameUntil P body body') (span span' : Span)
    (ss ss' : List Stmt) :
    SameUntil P (.loop span c body :: ss) (.loop span' c body' :: ss')

theorem Stmt.SameUntil.agreeUntil {P : String × Span → Prop} {ss ss' : List Stmt}
    (h : Stmt.SameUntil P ss ss') : AgreeUntil P (Stmt.mentionsAll ss) (Stmt.mentionsAll ss') := by
  induction h with
  | here hm hP ss ss' => exact (AgreeUntil.of_mem hm hP).append_right _ _
  | next s h ih => exact ih.append_left _
  | condition hm hP =>
    exact (((AgreeUntil.of_mem hm hP).append_right _ _).append_right _ _).append_right _ _
  -- in a body, the condition before it and what follows it are put around what is known of the body
  | inYes c h span span' no no' ss ss' ih =>
    exact ((ih.append_left _).append_right _ _).append_right _ _
  | inNo c yes h span span' ss ss' ih => exact (ih.append_left _).append_right _ _
  | test hm hP => exact ((AgreeUntil.of_mem hm hP).append_right _ _).append_right _ _
  | inBody c h span span' ss ss' ih => exact (ih.append_left _).append_right _ _

/-- What is reported is settled by the mentions up to the first that has no slot. -/
theorem AgreeUntil.findSome?_report {t : SymbolTable} {l l' : List (String × Span)}
    (h : AgreeUntil (fun m => t.slot? m.1 = none) l l') :
    ∃ u, l.findSome? t.report = some u ∧ l'.findSome? t.report = some u := by
  obtain ⟨before, m, after, after', hm, rfl, rfl⟩ := h
  have hreport : t.report m = some ⟨m.1, m.2⟩ := SymbolTable.report_eq_some_iff.mpr ⟨hm, rfl⟩
  rcases hbefore : before.findSome? t.report with _ | u
  · exact ⟨⟨m.1, m.2⟩, by simp [hbefore, hreport], by simp [hbefore, hreport]⟩
  · exact ⟨u, by simp [hbefore], by simp [hbefore]⟩

end Later

/-- Lowering fails for want of a slot exactly if some name of the program has none; it reports the
first mention of such a name; and whatever stands after that mention has no influence. -/
theorem lower_reports_first (p : Program) (t : SymbolTable) (n : Nat) :
    ((∃ u, p.lower t n = .error (.undeclared u)) ↔ ∃ x ∈ p.names, t.slot? x = none)
      ∧ (∀ x span, p.lower t n = .error (.undeclared ⟨x, span⟩) ↔
          ∃ before after, p.mentions = before ++ (x, span) :: after ∧ t.slot? x = none
            ∧ ∀ m ∈ before, t.slot? m.1 ≠ none)
      ∧ ∀ (q : Program) (k : Nat),
          Stmt.SameUntil (fun m => t.slot? m.1 = none) p.body q.body →
          q.lower t k = p.lower t n := by
  refine ⟨?_, fun x span => ?_, fun q k hsame => ?_⟩
  · have hnone : p.mentions.findSome? t.report = none ↔ ∀ m ∈ p.mentions, t.slot? m.1 ≠ none := by
      simp only [List.findSome?_eq_none_iff, SymbolTable.report_eq_none_iff]
    simp only [p.lower_eq_undeclared_iff, ← Option.ne_none_iff_exists', ne_eq, hnone]
    simp [p.names_eq]
  · rw [p.lower_eq_undeclared_iff, List.findSome?_eq_some_iff]
    simp only [SymbolTable.report_eq_none_iff, SymbolTable.report_eq_some_iff]
    constructor
    · rintro ⟨before, ⟨y, span'⟩, after, hsplit, ⟨hnone, heq⟩, hbefore⟩
      obtain ⟨rfl, rfl⟩ := Undeclared.mk.inj heq
      exact ⟨before, after, hsplit, hnone, hbefore⟩
    · rintro ⟨before, after, hsplit, hnone, hbefore⟩
      exact ⟨before, (x, span), after, hsplit, ⟨hnone, rfl⟩, hbefore⟩
  · obtain ⟨u, hp, hq⟩ := hsame.agreeUntil.findSome?_report
    rw [(q.lower_eq_undeclared_iff t k).mpr hq, (p.lower_eq_undeclared_iff t n).mpr hp]

/-- A branch inside a loop assigns a variable `y` without a slot.  What stands after the assignment
is left open, in the branch, in the loop and behind it. -/
def strayAssignment (inBranch inLoop after : List Stmt) : Program where
  source := "stray.txt"
  className := "Stray"
  body :=
    let here := Span.nowhere
    let x := Expr.var here "x"
    [.decl here "x" (.int here 3),
      .loop here x
        (.ifElse here (.unary here .not x) [.print here x]
          (.assign ⟨40, 46⟩ "y" (.var ⟨44, 45⟩ "z") :: inBranch) :: inLoop)] ++ after

/-- Another undeclared variable follows within the loop. -/
def strayInLoop : Program := strayAssignment [] [.print ⟨50, 58⟩ (.var ⟨56, 57⟩ "w")] []

/-- Another undeclared variable follows within the branch, and more after the loop. -/
def strayInBranch : Program :=
  strayAssignment [.assign ⟨47, 53⟩ "v" (.int ⟨51, 52⟩ 1)] [] strayInLoop.body

/-- Only `x` is declared. -/
def straySymbols : SymbolTable := (∅ : SymbolTable).declareAll ["x"]

theorem lower_reports_first_stray :
    Stmt.SameUntil (fun m => straySymbols.slot? m.1 = none) strayInLoop.body strayInBranch.body
      ∧ strayInLoop.lower straySymbols 0 = .error (.undeclared ⟨"y", ⟨40, 46⟩⟩)
      ∧ strayInBranch.lower straySymbols 7 = .error (.undeclared ⟨"y", ⟨40, 46⟩⟩) := by
  have hsame : Stmt.SameUntil (fun m => straySymbols.slot? m.1 = none) strayInLoop.body
      strayInBranch.body :=
    .next _ (.inBody _ (.inNo _ _ (.here List.mem_cons_self (by decide) _ _) _ _ _ _) _ _ _ _)
  obtain ⟨-, hfirst, hlater⟩ := lower_reports_first strayInLoop straySymbols 0
  have hstray : strayInLoop.lower straySymbols 0 = .error (.undeclared ⟨"y", ⟨40, 46⟩⟩) :=
    (hfirst "y" ⟨40, 46⟩).mpr ⟨List.replicate 4 ("x", .nowhere), _, rfl, by decide, by decide⟩
  exact ⟨hsame, hstray, (hlater strayInBranch 7 hsame).trans hstray⟩

end SlotColoring
