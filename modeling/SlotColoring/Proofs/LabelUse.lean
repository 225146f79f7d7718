import SlotColoring.Proofs.BlockEdges
import SlotColoring.Proofs.FreshLabels

/-!
# Every label has its jump

A construct takes fresh labels for itself and then for its parts, so the kinds of the labels of a
program follow its syntax (`Program.labelKinds`).  Its code places them all, each once
(`Labelled.placed`), and jumps forward to each that it places, but back to the head of a loop
(`Targeted`).  The blocks of the graph keep the order of the code, so the same holds of them.
-/

namespace SlotColoring

section Fresh

theorem exists_of_mem_freshLabels {l : Label} : ∀ {kinds : List String} {n : Nat},
    l ∈ freshLabels kinds n → ∃ kind k, n ≤ k ∧ l = freshLabel kind k
  | [], n, hl => absurd hl List.not_mem_nil
  | kind :: kinds, n, hl => by
    rcases List.mem_cons.mp hl with rfl | hl
    · exact ⟨kind, n, Nat.le_refl n, rfl⟩
    · obtain ⟨kind', k, hk, hl⟩ := exists_of_mem_freshLabels hl
      exact ⟨kind', k, by omega, hl⟩

theorem nodup_freshLabels : ∀ (kinds : List String) (n : Nat), (freshLabels kinds n).Nodup
  | [], n => List.nodup_nil
  | kind :: kinds, n => by
    refine List.nodup_cons.mpr ⟨fun hmem => ?_, nodup_freshLabels kinds (n + 1)⟩
    obtain ⟨kind', k, hk, heq⟩ := exists_of_mem_freshLabels hmem
    have := (freshLabel_inj heq).2
    omega

theorem freshLabels_append (kinds kinds' : List String) (n : Nat) :
    freshLabels (kinds ++ kinds') n
      = freshLabels kinds n ++ freshLabels kinds' (n + kinds.length) := by
  induction kinds generalizing n with
  | nil => rfl
  | cons kind kinds ih =>
    rw [List.cons_append, freshLabels, ih, freshLabels, List.cons_append, List.length_cons,
      Nat.add_right_comm, Nat.add_assoc]

end Fresh

/-- The kinds of the labels that the code of an expression takes, in the order it takes them. -/
def Expr.labelKinds : Expr → List String
  | int _ _ => []
  | bool _ _ => []
  | var _ _ => []
  | unary _ _ e => e.labelKinds
  | binary _ (.arith _) l r => l.labelKinds ++ r.labelKinds
  | binary _ (.compare _) l r => "true" :: "cmp" :: (l.labelKinds ++ r.labelKinds)

mutual

/-- The kinds of the labels that a statement takes. -/
def Stmt.labelKinds : Stmt → List String
  | .decl _ _ e => e.labelKinds
  | .assign _ _ e => e.labelKinds
  | .print _ e => e.labelKinds
  | .ifElse _ c yes no =>
    "else" :: "endif" :: (c.labelKinds ++ Stmt.labelKindsAll yes ++ Stmt.labelKindsAll no)
  | .loop _ c body => "while" :: "done" :: (c.labelKinds ++ Stmt.labelKindsAll body)

/-- The kinds of the labels that the statements of a list take. -/
def Stmt.labelKindsAll : List Stmt → List String
  | [] => []
  | s :: ss => s.labelKinds ++ Stmt.labelKindsAll ss

end

/-- The kinds of the labels that a program takes. -/
def Program.labelKinds (p : Program) : List String := Stmt.labelKindsAll p.body

/-- The label stands at the head of a loop. -/
def IsLoopHead (l : Label) : Prop := ∃ k, l = freshLabel "while" k

theorem not_isLoopHead {kind : String} (hkind : kind ≠ "while") (n : Nat) :
    ¬ IsLoopHead (freshLabel kind n) :=
  fun ⟨_, h⟩ => hkind (freshLabel_inj h).1

/-- A jump after the head of a loop leads back to it, and a jump before any other label leads on
to that. -/
def Targeted (events : List Event) : Prop :=
  ∀ before l after, events = before ++ .label l :: after →
    (IsLoopHead l → l ∈ jumpTargets after) ∧ (¬ IsLoopHead l → l ∈ jumpTargets before)

namespace Targeted

variable {es fs : List Event} {l : Label}

theorem plain (hlabels : placedLabels es = []) : Targeted es := by
  rintro before l after rfl
  simp [Event.label?] at hlabels

/-- Labels that are put behind the events can be jumped to from there. -/
theorem append_of (he : Targeted es)
    (hf : ∀ before l after, fs = before ++ .label l :: after →
      (IsLoopHead l → l ∈ jumpTargets after)
        ∧ (¬ IsLoopHead l → l ∈ jumpTargets (es ++ before))) : Targeted (es ++ fs) := by
  intro before l after hsplit
  rcases List.append_eq_append_iff.mp hsplit with ⟨mid, rfl, hmid⟩ | ⟨mid, rfl, hmid⟩
  · exact hf mid l after hmid
  · rcases mid with _ | ⟨e, mid⟩
    · simpa using hf [] l after (by simpa using hmid.symm)
    · obtain ⟨rfl, rfl⟩ := List.cons.inj hmid
      obtain ⟨hback, hforward⟩ := he before l mid rfl
      exact ⟨fun h => by simp [hback h], hforward⟩

theorem append (he : Targeted es) (hf : Targeted fs) : Targeted (es ++ fs) := by
  refine he.append_of fun before l after hsplit => ?_
  obtain ⟨hback, hforward⟩ := hf before l after hsplit
  exact ⟨hback, fun h => by simp [hforward h]⟩

/-- The events before the label jump to it. -/
theorem place (he : Targeted es) (hl : l ∈ jumpTargets es) (hhead : ¬ IsLoopHead l) :
    Targeted (es ++ [.label l]) := by
  refine he.append_of fun before m after hsplit => ?_
  rcases before with _ | ⟨e, before⟩
  · obtain rfl : l = m := Event.label.inj (List.cons.inj hsplit).1
    exact ⟨fun h => absurd h hhead, fun _ => by simpa using hl⟩
  · simp at hsplit

/-- The events after the head of a loop jump back to it. -/
theorem head (hf : Targeted fs) (hl : l ∈ jumpTargets fs) (hhead : IsLoopHead l) :
    Targeted (.label l :: fs) := by
  intro before m after hsplit
  rcases before with _ | ⟨e, before⟩
  · obtain ⟨hm, rfl⟩ := List.cons.inj hsplit
    obtain rfl := Event.label.inj hm
    exact ⟨fun _ => hl, fun h => absurd hhead h⟩
  · obtain ⟨rfl, hrest⟩ := List.cons.inj hsplit
    obtain ⟨hback, hforward⟩ := hf before m after hrest
    exact ⟨hback, fun h => by simp [hforward h]⟩

end Targeted

/-- The events place fresh labels of the given kinds, with the counts from `n` up to `m`, and jump
to each of them. -/
structure Labelled (kinds : List String) (events : List Event) (n m : Nat) : Prop where
  count : m = n + kinds.length
  placed : (placedLabels events).Perm (freshLabels kinds n)
  targeted : Targeted events

namespace Labelled

variable {kinds kinds' : List String} {es fs : List Event} {n m k : Nat}

theorem plain (hlabels : placedLabels es = []) : Labelled [] es n n :=
  ⟨rfl, by rw [hlabels, freshLabels], .plain hlabels⟩

theorem append (h : Labelled kinds es n m) (h' : Labelled kinds' fs m k) :
    Labelled (kinds ++ kinds') (es ++ fs) n k := by
  refine ⟨?_, ?_, h.targeted.append h'.targeted⟩
  · rw [h'.count, h.count, List.length_append, Nat.add_assoc]
  · rw [placedLabels_append, freshLabels_append, ← h.count]
    exact h.placed.append h'.placed

theorem snoc (h : Labelled kinds es n m) (hlabels : placedLabels fs = []) :
    Labelled kinds (es ++ fs) n m := by
  simpa using h.append (.plain hlabels)

/-- A construct takes two labels of its own and then those of its parts. -/
theorem wrap (h : Labelled kinds es (n + 2) m) {kind kind' : String}
    (hlabels : (placedLabels fs).Perm
      (freshLabel kind n :: freshLabel kind' (n + 1) :: placedLabels es))
    (htargeted : Targeted fs) : Labelled (kind :: kind' :: kinds) fs n m := by
  refine ⟨?_, hlabels.trans ?_, htargeted⟩
  · rw [h.count, List.length_cons, List.length_cons]
    omega
  · exact (h.placed.cons _).cons _

end Labelled

section Lowered

variable {t : SymbolTable}

theorem Expr.labelled : ∀ (e : Expr) (n : Nat),
    Labelled e.labelKinds (e.code t n).1.present n (e.code t n).2
  | .int _ i, n => .plain rfl
  | .bool _ b, n => .plain rfl
  | .var span x, n => by
    unfold code Code.load
    split
    · exact .plain rfl
    · exact .plain rfl
  | .unary _ .neg e, n => by
    simp only [code, Code.present_append]
    exact (e.labelled n).snoc rfl
  | .unary _ .not e, n => by
    simp only [code, Code.present_append]
    exact (e.labelled n).snoc rfl
  | .binary _ (.arith op) l r, n => by
    simp only [code, Code.present_append]
    exact ((l.labelled n).append (r.labelled _)).snoc rfl
  | .binary span (.compare c) l r, n => by
    have hparts := (l.labelled (n + 2)).append (r.labelled _)
    refine hparts.wrap (perm_placedLabels_compare span c l r n) ?_
    have hshape : ((binary span (.compare c) l r).code t n).1.present
        = (l.code t (n + 2)).1.present ++ (r.code t (l.code t (n + 2)).2).1.present
          ++ [.jump (.pair c) (freshLabel "true" n), .emit (.other "iconst_0" []),
            .jump .always (freshLabel "cmp" (n + 1))]
          ++ [.label (freshLabel "true" n)] ++ [.emit (.other "iconst_1" [])]
          ++ [.label (freshLabel "cmp" (n + 1))] := by
      simp [code]
    rw [hshape]
    refine (((hparts.targeted.append (.plain rfl)).place ?_ ?_).append (.plain rfl)).place ?_ ?_
    · simp [Event.opcode?, Opcode.target?]
    · exact not_isLoopHead (by decide) n
    · simp [Event.opcode?, Opcode.target?]
    · exact not_isLoopHead (by decide) (n + 1)

theorem Stmt.labelled_storeCode {span : Span} {x : String} {e : Expr} {n : Nat}
    (hok : ∀ u, .error u ∉ (storeCode t span x e n).1) :
    Labelled e.labelKinds (storeCode t span x e n).1.present n (storeCode t span x e n).2 := by
  unfold storeCode at hok ⊢
  split
  · rename_i hslot
    simp [hslot] at hok
  · rw [Code.present_append]
    exact (e.labelled n).snoc rfl

mutual

/-- A statement that stores to a variable without a slot places no labels, so there must be none. -/
theorem Stmt.labelled : ∀ (s : Stmt) (n : Nat), (∀ u, .error u ∉ (s.code t n).1) →
    Labelled s.labelKinds (s.code t n).1.present n (s.code t n).2
  | .decl span x e, n, hok => Stmt.labelled_storeCode hok
  | .assign span x e, n, hok => Stmt.labelled_storeCode hok
  | .print _ e, n, hok => by
    have hstream : Labelled [] [.emit (.other "getstatic"
        ["java/lang/System/out", "Ljava/io/PrintStream;"])] n n := .plain rfl
    simp only [code, Code.present_append, Code.present_cons_instruction]
    exact (hstream.append (e.labelled n)).snoc rfl
  | .ifElse span c yes no, n, hok => by
    have hcond := c.labelled (t := t) (n + 2)
    have hyes := Stmt.labelledAll yes (c.code t (n + 2)).2 fun u hu => hok u (by simp [code, hu])
    have hno := Stmt.labelledAll no (Stmt.codeAll t yes (c.code t (n + 2)).2).2
      fun u hu => hok u (by simp [code, hu])
    refine ((hcond.append hyes).append hno).wrap (perm_placedLabels_ifElse span c yes no n) ?_
    have hshape : ((ifElse span c yes no).code t n).1.present
        = (c.code t (n + 2)).1.present ++ [.jump (.zero .eq) (freshLabel "else" n)]
          ++ (codeAll t yes (c.code t (n + 2)).2).1.present
          ++ [.jump .always (freshLabel "endif" (n + 1))] ++ [.label (freshLabel "else" n)]
          ++ (codeAll t no (codeAll t yes (c.code t (n + 2)).2).2).1.present
          ++ [.label (freshLabel "endif" (n + 1))] := by
      simp [code]
    rw [hshape]
    refine (((((hcond.targeted.append (.plain rfl)).append hyes.targeted).append
      (.plain rfl)).place ?_ ?_).append hno.targeted).place ?_ ?_
    · simp [Event.opcode?, Opcode.target?]
    · exact not_isLoopHead (by decide) n
    · simp [Event.opcode?, Opcode.target?]
    · exact not_isLoopHead (by decide) (n + 1)
  | .loop span c body, n, hok => by
    have hcond := c.labelled (t := t) (n + 2)
    have hbody := Stmt.labelledAll body (c.code t (n + 2)).2 fun u hu => hok u (by simp [code, hu])
    refine (hcond.append hbody).wrap (perm_placedLabels_loop span c body n) ?_
    have hshape : ((loop span c body).code t n).1.present
        = .label (freshLabel "while" n) :: ((c.code t (n + 2)).1.present
          ++ [.jump (.zero .eq) (freshLabel "done" (n + 1))]
          ++ (codeAll t body (c.code t (n + 2)).2).1.present
          ++ [.jump .always (freshLabel "while" n)]) ++ [.label (freshLabel "done" (n + 1))] := by
      simp [code]
    rw [hshape]
    refine ((((hcond.targeted.append (.plain rfl)).append hbody.targeted).append
      (.plain rfl)).head ?_ ⟨n, rfl⟩).place ?_ ?_
    · simp [Event.opcode?, Opcode.target?]
    · simp [Event.opcode?, Opcode.target?]
    · exact not_isLoopHead (by decide) (n + 1)

theorem Stmt.labelledAll : ∀ (ss : List Stmt) (n : Nat), (∀ u, .error u ∉ (codeAll t ss n).1) →
    Labelled (Stmt.labelKindsAll ss) (codeAll t ss n).1.present n (codeAll t ss n).2
  | [], n, _ => .plain rfl
  | s :: ss, n, hok => by
    simp only [codeAll, Code.present_append]
    exact (s.labelled n fun u hu => hok u (by simp [codeAll, hu])).append
      (Stmt.labelledAll ss _ fun u hu => hok u (by simp [codeAll, hu]))

end

theorem Program.labelled {p : Program} {n : Nat} {events : List Event}
    (hcode : p.code t n = events.map .ok) :
    Labelled p.labelKinds events n (Stmt.codeAll t p.body n).2 := by
  have hok : ∀ u, .error u ∉ (Stmt.codeAll t p.body n).1 := fun u hu => by
    have hmem : .error u ∈ p.code t n := List.mem_append_left _ hu
    simp [hcode] at hmem
  rw [← Code.present_map_ok events, ← hcode, code, Code.present_append]
  exact (Stmt.labelledAll p.body n hok).snoc rfl

end Lowered

namespace Finished

variable {events : List Event} {g : BlockGraph} {before after : List Block} {x y : Block}
  {l : Label}

/-- A labelled block cuts the events where they place its label. -/
theorem exists_split (h : Finished events g) (hbs : g.blocks = before ++ x :: after)
    (hl : x.label = some l) : ∃ es fs, events = es ++ .label l :: fs
      ∧ (bodies before).map Instruction.opcode = emitted es
      ∧ (bodies (x :: after)).map Instruction.opcode = emitted fs := by
  obtain ⟨es, fs, hevents, hlen⟩ := (h.placed l _).mpr ⟨x, ⟨before, after, hbs, rfl⟩, hl⟩
  have hops := h.opcodes
  rw [hbs, hevents, bodies_append, emitted_append, List.map_append] at hops
  exact ⟨es, fs, hevents, List.append_inj hops (by rw [List.length_map, hlen])⟩

/-- A jump to a block's label is an edge to it. -/
theorem mem_succs_of_target (h : Finished events g) (hx : x ∈ g.blocks) (hy : y ∈ g.blocks)
    (hl : x.label = some l) (htarget : y.target? = some l) : x.id ∈ g.succs y.id :=
  (h.mem_succs_iff hy _).mpr ⟨x, hx, rfl, Or.inr ⟨l, htarget, hl⟩⟩

/-- The jumps of the events before and after a label are those of the blocks before and from the
block that carries it. -/
theorem exists_jump (h : Finished events g) (htargeted : Targeted events)
    (hbs : g.blocks = before ++ x :: after) (hl : x.label = some l) :
    (IsLoopHead l → ∃ y ∈ x :: after, y.target? = some l ∧ x.id ∈ g.succs y.id)
      ∧ (¬ IsLoopHead l → ∃ y ∈ before, y.target? = some l ∧ x.id ∈ g.succs y.id) := by
  obtain ⟨es, fs, hevents, hes, hfs⟩ := h.exists_split hbs hl
  obtain ⟨hback, hforward⟩ := htargeted es l fs hevents
  have hbefore : ∀ y ∈ before, y ∈ g.blocks := fun y hy => by simp [hbs, hy]
  have hafter : ∀ y ∈ x :: after, y ∈ g.blocks := fun y hy => by
    rw [hbs]
    exact List.mem_append_right _ hy
  have hx := hafter x List.mem_cons_self
  constructor
  · intro hhead
    obtain ⟨y, hy, htarget⟩ := (exists_block_iff_mem_jumpTargets hfs fun y hy =>
      h.closed y (hafter y hy)).mpr (hback hhead)
    exact ⟨y, hy, htarget, h.mem_succs_of_target hx (hafter y hy) hl htarget⟩
  · intro hhead
    obtain ⟨y, hy, htarget⟩ := (exists_block_iff_mem_jumpTargets hes fun y hy =>
      h.closed y (hbefore y hy)).mpr (hforward hhead)
    exact ⟨y, hy, htarget, h.mem_succs_of_target hx (hbefore y hy) hl htarget⟩

end Finished

/-- Fresh labels differ whatever their kinds are.  The blocks of a lowered program carry just the
labels that its constructs have taken, a block at or after the head of a loop jumps back to it, and
a block before any other label jumps forward to it. -/
theorem labels_used : (∀ kinds n, (freshLabels kinds n).Nodup)
    ∧ ∀ (p : Program) (t : SymbolTable) (n : Nat) (g : BlockGraph), p.lower t n = .ok g →
      (labelsOf g.blocks).Perm (freshLabels p.labelKinds n)
        ∧ ∀ before x after l, g.blocks = before ++ x :: after → x.label = some l →
          (IsLoopHead l → ∃ y ∈ x :: after, y.target? = some l ∧ x.id ∈ g.succs y.id)
            ∧ (¬ IsLoopHead l → ∃ y ∈ before, y.target? = some l ∧ x.id ∈ g.succs y.id) := by
  refine ⟨nodup_freshLabels, fun p t n g hg => ?_⟩
  obtain ⟨_, events, -, hcode, hbuild⟩ := Program.lower_ok hg
  have hf := BlockGraph.finished_of_build hbuild
  have hlabelled := Program.labelled hcode
  refine ⟨List.Perm.trans ?_ hlabelled.placed, fun before x after l hbs hl =>
    hf.exists_jump hlabelled.targeted hbs hl⟩
  have hnodup := hlabelled.placed.nodup_iff.mpr (nodup_freshLabels _ n)
  exact (List.perm_ext_iff_of_nodup hf.labels hnodup).mpr fun l =>
    mem_labelsOf_iff_mem_placedLabels hf.placed

/-- The loop takes its two labels before the comparisons in it take theirs, and its last block
jumps back. -/
theorem labels_used_countdown : ∃ g, countdown.lower countdown.symbols 0 = .ok g
    ∧ (freshLabels ["a_1", "a", "a_1_1", "", "_"] 9).Nodup
    ∧ (labelsOf g.blocks).Perm ["Lwhile_0", "Ldone_1", "Ltrue_2", "Lcmp_3", "Ltrue_4", "Lcmp_5"]
    ∧ ∃ before x after, g.blocks = before ++ x :: after ∧ x.label = some "Lwhile_0"
      ∧ ∃ y ∈ x :: after, y.target? = some "Lwhile_0" ∧ x.id ∈ g.succs y.id := by
  obtain ⟨g, hg⟩ : ∃ g, countdown.lower countdown.symbols 0 = .ok g := ⟨_, rfl⟩
  have hkinds : freshLabels countdown.labelKinds 0
      = ["Lwhile_0", "Ldone_1", "Ltrue_2", "Lcmp_3", "Ltrue_4", "Lcmp_5"] := by decide
  obtain ⟨hnodup, hused⟩ := labels_used
  obtain ⟨hperm, hjumps⟩ := hused countdown countdown.symbols 0 g hg
  rw [hkinds] at hperm
  obtain ⟨x, hx, hl⟩ := mem_labelsOf.mp (hperm.mem_iff.mpr List.mem_cons_self)
  obtain ⟨before, after, hbs⟩ := List.append_of_mem hx
  exact ⟨g, hg, hnodup _ 9, hperm, before, x, after, hbs, hl,
    (hjumps before x after _ hbs hl).1 ⟨0, by decide⟩⟩

end SlotColoring
