import SlotColoring.Proofs.BuildOutcome
import SlotColoring.Proofs.LoweredCode

/-!
# The labels of lowered code

A label ends in its count, after the last underscore, so labels with different counts differ
whatever their kinds are (`freshLabel_inj`).  The code of an expression or a statement uses up the
counts of an interval: it places each of its labels once, with counts from there, and jumps to no
others (`Enclosed`), so that such code always builds.
-/

namespace SlotColoring

section Counts

/-- What follows the last of the separators tells where it stands. -/
theorem eq_of_last_separator {α : Type*} {c : α} {p p' d d' : List α} (hd : c ∉ d) (hd' : c ∉ d')
    (h : p ++ c :: d = p' ++ c :: d') : p = p' ∧ d = d' := by
  rcases List.append_eq_append_iff.mp h with ⟨as, rfl, hrest⟩ | ⟨as, rfl, hrest⟩
  · rcases as with _ | ⟨a, as⟩
    · simpa using hrest
    · simp only [List.cons_append, List.cons.injEq] at hrest
      simp [hrest.2] at hd
  · rcases as with _ | ⟨a, as⟩
    · simpa [eq_comm] using hrest
    · simp only [List.cons_append, List.cons.injEq] at hrest
      simp [hrest.2] at hd'

theorem underscore_not_mem_digits (n : Nat) : '_' ∉ Nat.toDigits 10 n := by
  intro h
  have hdigit := Nat.isDigit_of_mem_toDigits (by omega) (by omega) h
  simp [Char.isDigit] at hdigit

theorem toList_freshLabel (kind : String) (n : Nat) :
    (freshLabel kind n).toList = ('L' :: kind.toList) ++ '_' :: Nat.toDigits 10 n := by
  simp [freshLabel]

theorem freshLabel_inj {kind kind' : String} {n m : Nat}
    (h : freshLabel kind n = freshLabel kind' m) : kind = kind' ∧ n = m := by
  have hchars := congrArg String.toList h
  rw [toList_freshLabel, toList_freshLabel] at hchars
  obtain ⟨hkind, hdigits⟩ := eq_of_last_separator (underscore_not_mem_digits n)
    (underscore_not_mem_digits m) hchars
  refine ⟨String.toList_inj.mp (List.cons.inj hkind).2, ?_⟩
  rw [← Nat.ofDigitChars_ten_toDigits (n := n), hdigits, Nat.ofDigitChars_ten_toDigits]

end Counts

/-- The events of the code, without the variables that have no slot. -/
def Code.present (code : Code) : List Event := code.filterMap Except.toOption

namespace Code

@[simp]
theorem present_nil : present [] = [] := rfl

@[simp]
theorem present_append (code code' : Code) :
    present (code ++ code') = present code ++ present code' :=
  List.filterMap_append

@[simp]
theorem present_cons_label (l : Label) (code : Code) :
    present (label l :: code) = .label l :: present code := rfl

@[simp]
theorem present_cons_jump (c : Condition) (l : Label) (code : Code) :
    present (jump c l :: code) = .jump c l :: present code := rfl

@[simp]
theorem present_cons_instruction (m : String) (operands : List String) (code : Code) :
    present (instruction m operands :: code) = .emit (.other m operands) :: present code := rfl

theorem present_map_ok (events : List Event) : present (events.map .ok) = events := by
  simp [present, List.filterMap_map, Function.comp_def, Except.toOption]

end Code

/-- The events place fresh labels, each once and with counts from `n` up to `m`, and jump to no
others. -/
structure Enclosed (events : List Event) (n m : Nat) : Prop where
  le : n ≤ m
  counted : ∀ l ∈ placedLabels events, ∃ kind k, n ≤ k ∧ k < m ∧ l = freshLabel kind k
  nodup : (placedLabels events).Nodup
  targets : ∀ l ∈ jumpTargets events, l ∈ placedLabels events

namespace Enclosed

variable {es fs : List Event} {n m k : Nat}

theorem plain (hlabels : placedLabels es = []) (htargets : jumpTargets es = []) :
    Enclosed es n n :=
  ⟨Nat.le_refl n, by simp [hlabels], by simp [hlabels], by simp [htargets]⟩

theorem append (h : Enclosed es n m) (h' : Enclosed fs m k) : Enclosed (es ++ fs) n k := by
  refine ⟨Nat.le_trans h.le h'.le, ?_, ?_, ?_⟩
  · intro l hl
    rw [placedLabels_append, List.mem_append] at hl
    rcases hl with hl | hl
    · obtain ⟨kind, i, hn, hm, rfl⟩ := h.counted l hl
      exact ⟨kind, i, hn, Nat.lt_of_lt_of_le hm h'.le, rfl⟩
    · obtain ⟨kind, i, hm, hk, rfl⟩ := h'.counted l hl
      exact ⟨kind, i, Nat.le_trans h.le hm, hk, rfl⟩
  · rw [placedLabels_append]
    refine List.nodup_append'.mpr ⟨h.nodup, h'.nodup, fun l hl hl' => ?_⟩
    -- the counts of the one end where those of the other start
    obtain ⟨kind, i, -, hi, rfl⟩ := h.counted l hl
    obtain ⟨kind', j, hj, -, heq⟩ := h'.counted _ hl'
    have := (freshLabel_inj heq).2
    omega
  · intro l hl
    rw [jumpTargets_append, List.mem_append] at hl
    rw [placedLabels_append, List.mem_append]
    exact hl.imp (h.targets l) (h'.targets l)

/-- A construct puts two labels of its own around its parts, and jumps to them. -/
theorem wrap (h : Enclosed es (n + 2) m) (kind kind' : String)
    (hlabels : (placedLabels fs).Perm
      (freshLabel kind n :: freshLabel kind' (n + 1) :: placedLabels es))
    (htargets : ∀ l ∈ jumpTargets fs,
      l = freshLabel kind n ∨ l = freshLabel kind' (n + 1) ∨ l ∈ jumpTargets es) :
    Enclosed fs n m := by
  have hle := h.le
  refine ⟨by omega, ?_, ?_, ?_⟩
  · intro l hl
    rw [hlabels.mem_iff, List.mem_cons, List.mem_cons] at hl
    rcases hl with rfl | rfl | hl
    · exact ⟨kind, n, by omega, by omega, rfl⟩
    · exact ⟨kind', n + 1, by omega, by omega, rfl⟩
    · obtain ⟨kind, k, hn, hm, rfl⟩ := h.counted l hl
      exact ⟨kind, k, by omega, hm, rfl⟩
  · have houtside : ∀ (a : String) (i : Nat), i < n + 2 → freshLabel a i ∉ placedLabels es := by
      intro a i hi hmem
      obtain ⟨b, k, hk, -, heq⟩ := h.counted _ hmem
      have := (freshLabel_inj heq).2
      omega
    have hne : freshLabel kind n ≠ freshLabel kind' (n + 1) := fun heq => by
      have := (freshLabel_inj heq).2
      omega
    rw [hlabels.nodup_iff, List.nodup_cons, List.nodup_cons, List.mem_cons, not_or]
    exact ⟨⟨hne, houtside _ _ (by omega)⟩, houtside _ _ (by omega), h.nodup⟩
  · intro l hl
    rw [hlabels.mem_iff, List.mem_cons, List.mem_cons]
    exact (htargets l hl).imp id (Or.imp id (h.targets l))

end Enclosed

section Lowered

variable {t : SymbolTable}

theorem Expr.perm_placedLabels_compare (span : Span) (c : Comparison) (l r : Expr) (n : Nat) :
    (placedLabels ((binary span (.compare c) l r).code t n).1.present).Perm
      (freshLabel "true" n :: freshLabel "cmp" (n + 1) :: placedLabels
        ((l.code t (n + 2)).1.present ++ (r.code t (l.code t (n + 2)).2).1.present)) := by
  refine List.perm_iff_count.mpr fun m => ?_
  simp [code, Event.label?, List.count_append, List.count_cons]
  omega

theorem Stmt.perm_placedLabels_ifElse (span : Span) (c : Expr) (yes no : List Stmt) (n : Nat) :
    (placedLabels ((ifElse span c yes no).code t n).1.present).Perm
      (freshLabel "else" n :: freshLabel "endif" (n + 1) :: placedLabels
        ((c.code t (n + 2)).1.present ++ (codeAll t yes (c.code t (n + 2)).2).1.present
          ++ (codeAll t no (codeAll t yes (c.code t (n + 2)).2).2).1.present)) := by
  refine List.perm_iff_count.mpr fun m => ?_
  simp [code, Event.label?, List.count_append, List.count_cons]
  omega

theorem Stmt.perm_placedLabels_loop (span : Span) (c : Expr) (body : List Stmt) (n : Nat) :
    (placedLabels ((loop span c body).code t n).1.present).Perm
      (freshLabel "while" n :: freshLabel "done" (n + 1) :: placedLabels
        ((c.code t (n + 2)).1.present ++ (codeAll t body (c.code t (n + 2)).2).1.present)) := by
  refine List.perm_iff_count.mpr fun m => ?_
  simp [code, Event.label?, List.count_append, List.count_cons]
  omega

theorem Expr.enclosed : ∀ (e : Expr) (n : Nat), Enclosed (e.code t n).1.present n (e.code t n).2
  | .int _ i, n => .plain rfl rfl
  | .bool _ b, n => .plain rfl rfl
  | .var span x, n => by
    unfold code Code.load
    split
    · exact .plain rfl rfl
    · exact .plain rfl rfl
  | .unary _ .neg e, n => by
    simp only [code, Code.present_append]
    exact (e.enclosed n).append (.plain rfl rfl)
  | .unary _ .not e, n => by
    simp only [code, Code.present_append]
    exact (e.enclosed n).append (.plain rfl rfl)
  | .binary _ (.arith op) l r, n => by
    simp only [code, Code.present_append]
    exact ((l.enclosed n).append (r.enclosed _)).append (.plain rfl rfl)
  | .binary span (.compare c) l r, n => by
    refine ((l.enclosed (n + 2)).append (r.enclosed _)).wrap "true" "cmp"
      (perm_placedLabels_compare span c l r n) fun m hm => ?_
    simp [code, Event.opcode?, Opcode.target?] at hm ⊢
    tauto

theorem Stmt.enclosed_storeCode (span : Span) (x : String) (e : Expr) (n : Nat) :
    Enclosed (storeCode t span x e n).1.present n (storeCode t span x e n).2 := by
  unfold storeCode
  split
  · exact .plain rfl rfl
  · rw [Code.present_append]
    exact (e.enclosed n).append (.plain rfl rfl)

mutual

theorem Stmt.enclosed : ∀ (s : Stmt) (n : Nat), Enclosed (s.code t n).1.present n (s.code t n).2
  | .decl span x e, n => Stmt.enclosed_storeCode span x e n
  | .assign span x e, n => Stmt.enclosed_storeCode span x e n
  | .print _ e, n => by
    have hstream : Enclosed [.emit (.other "getstatic"
        ["java/lang/System/out", "Ljava/io/PrintStream;"])] n n := .plain rfl rfl
    simp only [code, Code.present_append, Code.present_cons_instruction]
    exact (hstream.append (e.enclosed n)).append (.plain rfl rfl)
  | .ifElse span c yes no, n => by
    refine (((c.enclosed (n + 2)).append (Stmt.enclosedAll yes _)).append
      (Stmt.enclosedAll no _)).wrap "else" "endif"
      (perm_placedLabels_ifElse span c yes no n) fun m hm => ?_
    simp [code, Event.opcode?, Opcode.target?] at hm ⊢
    tauto
  | .loop span c body, n => by
    refine ((c.enclosed (n + 2)).append (Stmt.enclosedAll body _)).wrap "while" "done"
      (perm_placedLabels_loop span c body n) fun m hm => ?_
    simp [code, Event.opcode?, Opcode.target?] at hm ⊢
    tauto

theorem Stmt.enclosedAll : ∀ (ss : List Stmt) (n : Nat),
    Enclosed (Stmt.codeAll t ss n).1.present n (Stmt.codeAll t ss n).2
  | [], n => .plain rfl rfl
  | s :: ss, n => by
    simp only [codeAll, Code.present_append]
    exact (s.enclosed n).append (Stmt.enclosedAll ss _)

end

theorem Program.enclosed {p : Program} {n : Nat} {events : List Event}
    (hcode : p.code t n = events.map .ok) : Enclosed events n (Stmt.codeAll t p.body n).2 := by
  rw [← Code.present_map_ok events, ← hcode, code, Code.present_append]
  exact (Stmt.enclosedAll p.body n).append (.plain rfl rfl)

end Lowered

end SlotColoring
