import SlotColoring.Proofs.BlockEdges
import SlotColoring.Proofs.FreshLabels

/-!
# Lowered programs have no dead code

Every construct lies among the instructions so that control which enters at its start may come to
all of it, and from all of it to what follows (`Passable`).  For blocks that is not enough: a `goto`
leaves an empty block behind it that nothing leads to, and labels at one place make empty blocks of
their own.  But the code places a label right after each `goto`, and a jump from before the `goto`
leads there (`Guarded`).  So at every event control may come to each block that will be kept and,
but between the two, to the one that is open (`Builder.Lit`).  The end of a program is its one exit
(`lowered_connected`).
-/

namespace SlotColoring

open Relation (ReflTransGen TransGen reflTransGen_iff_eq_or_transGen)

section Instructions

variable {events : List Event} {i j k m : Nat} {op : Opcode} {c : Condition} {l : Label}

theorem Follows.next (hop : (emitted events)[i]? = some op) (hgoto : op.isGoto = false)
    (hlt : i + 1 < (emitted events).length) : Follows events i (i + 1) :=
  ⟨op, hop, hlt, Or.inl ⟨rfl, hgoto⟩⟩

theorem Follows.pass (hop : (emitted events)[i]? = some (.jump c l)) (hc : c ≠ .always)
    (hlt : i + 1 < (emitted events).length) : Follows events i (i + 1) := by
  refine .next hop ?_ hlt
  cases c <;> simp_all [Opcode.isGoto]

theorem Follows.jump (hop : (emitted events)[i]? = some (.jump c l)) (hl : PlacedAt events l j)
    (hlt : j < (emitted events).length) : Follows events i j :=
  ⟨_, hop, hlt, Or.inr ⟨l, rfl, hl⟩⟩

/-- From the `i`-th instruction control may come to any up to the `j`-th, and from any of these to
the `j`-th. -/
structure Passable (events : List Event) (i j : Nat) : Prop where
  le : i ≤ j
  enters : ∀ k, i ≤ k → k ≤ j → ReflTransGen (Follows events) i k
  leaves : ∀ k, i ≤ k → k ≤ j → ReflTransGen (Follows events) k j

namespace Passable

theorem refl (events : List Event) (i : Nat) : Passable events i i where
  le := Nat.le_refl i
  enters k hik hki := by
    obtain rfl : i = k := by omega
    exact .refl
  leaves k hik hki := by
    obtain rfl : i = k := by omega
    exact .refl

theorem through (h : Passable events i j) : ReflTransGen (Follows events) i j :=
  h.enters j h.le (Nat.le_refl j)

theorem trans (h : Passable events i m) (h' : Passable events m j) : Passable events i j where
  le := Nat.le_trans h.le h'.le
  enters k hik hkj := by
    rcases Nat.le_total k m with hkm | hmk
    · exact h.enters k hik hkm
    · exact h.through.trans (h'.enters k hmk hkj)
  leaves k hik hkj := by
    rcases Nat.le_total k m with hkm | hmk
    · exact (h.leaves k hik hkm).trans h'.through
    · exact h'.leaves k hmk hkj

theorem step (hop : (emitted events)[i]? = some op) (hgoto : op.isGoto = false)
    (hlt : i + 1 < (emitted events).length) : Passable events i (i + 1) where
  le := Nat.le_succ i
  enters k hik hki := by
    obtain rfl | rfl : i = k ∨ i + 1 = k := by omega
    · exact .refl
    · exact .single (.next hop hgoto hlt)
  leaves k hik hki := by
    obtain rfl | rfl : i = k ∨ i + 1 = k := by omega
    · exact .single (.next hop hgoto hlt)
    · exact .refl

variable {other done : Label} (hc : c ≠ .always)
  (test : (emitted events)[m]? = some (.jump c other)) (other_at : PlacedAt events other (k + 1))
include hc test other_at

/-- Two ways that part at a test and meet again at the end of the second. -/
theorem diamond (yes : Passable events (m + 1) k)
    (skip : (emitted events)[k]? = some (.jump .always done)) (done_at : PlacedAt events done j)
    (no : Passable events (k + 1) j) (hlt : j < (emitted events).length) :
    Passable events m j := by
  have hyes := yes.le
  have hno := no.le
  have hfalls := Follows.pass test hc (by omega)
  have hother : Follows events m (k + 1) := .jump test other_at (by omega)
  have hskip : Follows events k j := .jump skip done_at hlt
  refine ⟨by omega, fun x hx hxj => ?_, fun x hx hxj => ?_⟩
  · rcases Nat.lt_or_ge k x with hk | hk
    · exact .head hother (no.enters x hk hxj)
    · rcases Nat.lt_or_ge m x with hm | hm
      · exact .head hfalls (yes.enters x hm hk)
      · obtain rfl : m = x := by omega
        exact .refl
  · rcases Nat.lt_or_ge k x with hk | hk
    · exact no.leaves x hk hxj
    · rcases Nat.lt_or_ge m x with hm | hm
      · exact (yes.leaves x hm hk).tail hskip
      · obtain rfl : m = x := by omega
        exact .head hother no.through

/-- A way that goes back to its start, past a test that leads out. -/
theorem loop (cond : Passable events i m) (body : Passable events (m + 1) k)
    (back : (emitted events)[k]? = some (.jump .always done)) (done_at : PlacedAt events done i)
    (hlt : k + 1 < (emitted events).length) : Passable events i (k + 1) := by
  have hcond := cond.le
  have hbody := body.le
  have hfalls := Follows.pass test hc (by omega)
  have hout : Follows events m (k + 1) := .jump test other_at hlt
  have hback : Follows events k i := .jump back done_at (by omega)
  refine ⟨by omega, fun x hx hxk => ?_, fun x hx hxk => ?_⟩
  · rcases Nat.lt_or_ge m x with hm | hm
    · rcases Nat.lt_or_ge k x with hk | hk
      · obtain rfl : k + 1 = x := by omega
        exact cond.through.tail hout
      · exact cond.through.trans (.head hfalls (body.enters x hm hk))
    · exact cond.enters x hx hm
  · rcases Nat.lt_or_ge m x with hm | hm
    · rcases Nat.lt_or_ge k x with hk | hk
      · obtain rfl : k + 1 = x := by omega
        exact .refl
      · exact ((body.leaves x hm hk).tail hback).trans (cond.through.tail hout)
    · exact (cond.leaves x hx hm).tail hout

end Passable

end Instructions

section Syntax

variable {events : List Event} {t : SymbolTable}

theorem Expr.LiesAt.passable {e : Expr} {i j : Nat} (h : e.LiesAt events t i j)
    (hj : j < (emitted events).length) : Passable events i j := by
  induction h with
  | int op => exact .step op rfl hj
  | bool op => exact .step op rfl hj
  | var slot op => exact .step op rfl hj
  | neg operand op ih => exact (ih (by omega)).trans (.step op rfl hj)
  | not operand one op ih =>
    exact ((ih (by omega)).trans (.step one rfl (by omega))).trans (.step op rfl hj)
  | arith left right op ihl ihr =>
    have hr := ihr (by omega)
    have hle := hr.le
    exact ((ihl (by omega)).trans hr).trans (.step op rfl hj)
  | @compare i m k span c l r yes done left right test zero skip one yes_at done_at ihl ihr =>
    have hr := ihr (by omega)
    have hle := hr.le
    refine ((ihl (by omega)).trans hr).trans ?_
    exact .diamond (by simp) test yes_at (.step zero rfl (by omega)) skip done_at
      (.step one rfl (by omega)) hj

mutual

theorem Stmt.LiesAt.passable : ∀ {s : Stmt} {i j : Nat}, s.LiesAt events t i j →
    j < (emitted events).length → Passable events i j
  | _, _, _, .decl slot value op, hj => (value.passable (by omega)).trans (.step op rfl hj)
  | _, _, _, .assign slot value op, hj => (value.passable (by omega)).trans (.step op rfl hj)
  | _, _, _, .print stream value op, hj => by
    have hvalue := value.passable (by omega)
    have hle := hvalue.le
    exact ((Passable.step stream rfl (by omega)).trans hvalue).trans (.step op rfl hj)
  | _, _, _, .ifElse cond test yes_lie skip no_lie otherwise_at done_at, hj => by
    have hno := no_lie.passable hj
    have hnole := hno.le
    have hyes := yes_lie.passable (by omega)
    have hyesle := hyes.le
    exact (cond.passable (by omega)).trans (.diamond (by simp) test otherwise_at hyes skip done_at
      hno hj)
  | _, _, _, .loop again_at cond test body_lie back done_at, hj => by
    have hbody := body_lie.passable (by omega)
    have hle := hbody.le
    exact .loop (by simp) test done_at (cond.passable (by omega)) hbody back again_at hj

theorem Stmt.AllLieAt.passable : ∀ {ss : List Stmt} {i j : Nat}, Stmt.AllLieAt events t i ss j →
    j < (emitted events).length → Passable events i j
  | _, i, _, .nil, _ => .refl events i
  | _, _, _, .cons first rest, hj => by
    have hrest := rest.passable hj
    have hle := hrest.le
    exact (first.passable (by omega)).trans hrest

end

end Syntax

section Blocks

/-- Control may come from the first block to the block with the id. -/
def Reached (bs : List Block) (id : Nat) : Prop := ReflTransGen (Joined bs) 0 id

/-- Control may come to every block that is not removable, the first is none, and jumps to the
labels `named` end blocks. -/
structure Lit (named : List Label) (bs : List Block) : Prop where
  reached : ∀ x ∈ bs, x.isRemovable = false → Reached bs x.id
  first : ∀ x, bs.head? = some x → x.isRemovable = false
  named : ∀ l ∈ named, ∃ a ∈ bs, a.target? = some l

variable {done : List Event} {bs before : List Block} {cur : Block} {named : List Label}
  {id : Nat} {op : Opcode} {l : Label}

theorem Block.isRemovable_of_target? {x : Block} (h : x.target? = some l) :
    x.isRemovable = false := by
  refine not_isRemovable fun hbody => ?_
  rw [Block.target?_of_body_eq_nil hbody] at h
  simp at h

theorem Block.endsInGoto_of_target?_eq_none {x : Block} (h : x.target? = none) :
    x.endsInGoto = false := by
  unfold Block.target? at h
  unfold Block.endsInGoto
  rcases hlast : x.lastOpcode? with _ | op
  · rfl
  · rw [hlast, Option.bind_some] at h
    exact Opcode.isGoto_of_target?_eq_none h

theorem Reached.grow (h : Reached bs id) (hbs : Layout done bs) (label : Option Label) :
    Reached (bs ++ [⟨bs.length, label, []⟩]) id :=
  ReflTransGen.mono (fun _ _ hxy => (joined_grow hbs label).mpr (Or.inl hxy)) _ _ h

theorem Reached.extend (h : Reached (before ++ [cur]) id) (hbs : Layout done (before ++ [cur]))
    (hcur : cur.target? = none) (n : Nat) (op : Opcode) :
    Reached (before ++ [cur.extend n op]) id :=
  ReflTransGen.mono (fun _ _ hxy => (joined_extend hbs hcur n op).mpr (Or.inl hxy)) _ _ h

/-- A block that is opened is reached from the one before it, unless that ends in `goto`. -/
theorem Reached.fall (h : Reached (before ++ [cur]) cur.id) (hbs : Layout done (before ++ [cur]))
    (hgoto : cur.endsInGoto = false) (label : Option Label) :
    Reached (before ++ [cur] ++ [⟨(before ++ [cur]).length, label, []⟩])
      (before ++ [cur]).length := by
  refine (h.grow hbs label).tail ((joined_grow hbs label).mpr (Or.inr ⟨rfl, cur, by simp, rfl, ?_⟩))
  refine Or.inl ⟨?_, hgoto⟩
  rw [hbs.last_id, List.length_append, List.length_singleton]

/-- A block that is opened at a label is reached from a jump that names it. -/
theorem Lit.jump (h : Lit named bs) (hbs : Layout done bs) (hl : l ∈ named) :
    Reached (bs ++ [⟨bs.length, some l, []⟩]) bs.length := by
  obtain ⟨a, ha, htarget⟩ := h.named l hl
  have hreached := h.reached a ha (Block.isRemovable_of_target? htarget)
  refine (hreached.grow hbs (some l)).tail ((joined_grow hbs (some l)).mpr
    (Or.inr ⟨rfl, a, ha, rfl, Or.inr ⟨l, htarget, rfl⟩⟩))

theorem Lit.grow (h : Lit named bs) (hbs : Layout done bs) (label : Option Label)
    (hfirst : bs = [] → label ≠ none)
    (hnew : label ≠ none → Reached (bs ++ [⟨bs.length, label, []⟩]) bs.length) :
    Lit named (bs ++ [⟨bs.length, label, []⟩]) := by
  refine ⟨fun x hx hkept => ?_, Rooted.grow h.first hfirst _, fun l hl => ?_⟩
  · rcases List.mem_append.mp hx with hx | hx
    · exact (h.reached x hx hkept).grow hbs label
    · obtain rfl := List.mem_singleton.mp hx
      refine hnew ?_
      rintro rfl
      simp [Block.isRemovable] at hkept
  · obtain ⟨a, ha, htarget⟩ := h.named l hl
    exact ⟨a, List.mem_append_left _ ha, htarget⟩

theorem Lit.extend (h : Lit named (before ++ [cur])) (hbs : Layout done (before ++ [cur]))
    (hcur : cur.target? = none) (hnewest : Reached (before ++ [cur]) cur.id) (n : Nat)
    (op : Opcode) : Lit (op.target?.toList ++ named) (before ++ [cur.extend n op]) := by
  refine ⟨fun x hx hkept => ?_, Rooted.extend h.first n op, fun l hl => ?_⟩
  · rcases List.mem_append.mp hx with hx | hx
    · exact (h.reached x (List.mem_append_left _ hx) hkept).extend hbs hcur n op
    · obtain rfl := List.mem_singleton.mp hx
      exact hnewest.extend hbs hcur n op
  · rcases List.mem_append.mp hl with hl | hl
    · refine ⟨cur.extend n op, by simp, ?_⟩
      rw [Block.target?_extend]
      exact Option.mem_toList.mp hl
    · obtain ⟨a, ha, htarget⟩ := h.named l hl
      rcases List.mem_append.mp ha with ha | ha
      · exact ⟨a, List.mem_append_left _ ha, htarget⟩
      · -- the newest block ended in no jump so far
        obtain rfl := List.mem_singleton.mp ha
        rw [hcur] at htarget
        simp at htarget

namespace Builder

variable {b b' : Builder} {e : Event} {c : Condition}

/-- Control may come to the blocks that the builder has closed, and to the one that it has open. -/
structure Lit (named : List Label) (b : Builder) : Prop where
  blocks : SlotColoring.Lit named b.graph.blocks
  newest : ∀ x, b.graph.blocks.getLast? = some x → Reached b.graph.blocks x.id

theorem Lit.start (head : Head) : (start head).Lit [] := by
  refine ⟨⟨?_, ?_, ?_⟩, ?_⟩ <;> simp [Builder.start, graph]

theorem Lit.of_blocks (hblocks : b.graph.blocks = before ++ [cur])
    (hlit : SlotColoring.Lit named (before ++ [cur])) (hcur : Reached (before ++ [cur]) cur.id) :
    b.Lit named := by
  refine ⟨hblocks ▸ hlit, fun x hx => ?_⟩
  rw [hblocks, List.getLast?_concat, Option.some.injEq] at hx
  rw [hblocks, ← hx]
  exact hcur

/-- An instruction goes to the end of the newest block, to which control may come. -/
theorem Lit.push_cases (h : b.Lit named) (hb : b.Inv done) (he : e.opcode? = some op) :
    ∃ before cur, (b.push op).graph.blocks = before ++ [cur] ∧ cur.lastOpcode? = some op
      ∧ Layout (done ++ [e]) (before ++ [cur]) ∧ Reached (before ++ [cur]) cur.id
      ∧ SlotColoring.Lit (op.target?.toList ++ named) (before ++ [cur]) := by
  have hcount := b.instCount_eq
  rcases hblocks : b.blocks with _ | ⟨cur, older⟩
  · have hgraph : b.graph.blocks = [] := by simp [graph, hblocks]
    have hopen := layout_openBlock_none hb.layout
    rw [blocks_openBlock, hgraph] at hopen
    have hlayout := hopen.push (Block.target?_of_body_eq_nil rfl) he
    refine ⟨[], _, ?_, Block.lastOpcode?_extend _ _ op, hlayout, .refl, ⟨?_, ?_, ?_⟩⟩
    · rw [hgraph] at hcount
      simp [push, hblocks, graph, openBlock, nextBlock, Block.extend, hcount, bodies]
    · intro x hx _
      obtain rfl := List.mem_singleton.mp hx
      exact .refl
    · intro x hx
      obtain rfl := Option.some.inj hx
      exact Block.isRemovable_extend _ _ op
    · intro l hl
      rcases List.mem_append.mp hl with hl | hl
      · exact ⟨_, List.mem_singleton_self _, by rwa [Block.target?_extend, ← Option.mem_toList]⟩
      · obtain ⟨a, ha, -⟩ := h.blocks.named l hl
        rw [hgraph] at ha
        exact absurd ha List.not_mem_nil
  · have hgraph : b.graph.blocks = older.reverse ++ [cur] := by simp [graph, hblocks]
    have hcur := hb.idle cur (by simp [hblocks])
    have hnewest := h.newest cur (by simp [hgraph])
    have hlayout := hb.layout
    have hlit := h.blocks
    rw [hgraph] at hcount hnewest hlayout hlit
    refine ⟨older.reverse, cur.extend (bodies (older.reverse ++ [cur])).length op, ?_,
      Block.lastOpcode?_extend _ _ op, hlayout.push hcur he, ?_, ?_⟩
    · simp [push, hblocks, graph, Block.extend, hcount]
    · exact hnewest.extend hlayout hcur _ op
    · exact hlit.extend hlayout hcur hnewest _ op

theorem Lit.push (h : b.Lit named) (hb : b.Inv done) (hop : op.target? = none) :
    (b.push op).Lit named := by
  obtain ⟨before, cur, hblocks, -, -, hnewest, hlit⟩ := h.push_cases hb (e := .emit op) rfl
  rw [hop] at hlit
  exact .of_blocks hblocks hlit hnewest

theorem Lit.blocks_addJump (h : b.Lit named) (hb : b.Inv done) (c : Condition) (l : Label) :
    SlotColoring.Lit (l :: named) (b.addJump c l).graph.blocks := by
  obtain ⟨before, cur, hblocks, -, hlayout, -, hlit⟩ := h.push_cases hb (e := .jump c l) rfl
  rw [Builder.blocks_addJump, hblocks]
  exact hlit.grow hlayout none (by simp) (by simp)

theorem Lit.addJump (h : b.Lit named) (hb : b.Inv done) (hc : c ≠ .always) (l : Label) :
    (b.addJump c l).Lit (l :: named) := by
  have hlit := h.blocks_addJump hb c l
  obtain ⟨before, cur, hblocks, hlast, hlayout, hnewest, -⟩ :=
    h.push_cases hb (e := .jump c l) rfl
  have hgoto : cur.endsInGoto = false := by
    rw [Block.endsInGoto, hlast, Option.any_some]
    cases c <;> simp_all [Opcode.isGoto]
  have hadd := b.blocks_addJump c l
  rw [hblocks] at hadd
  rw [hadd] at hlit
  exact .of_blocks hadd hlit (hnewest.fall hlayout hgoto none)

theorem Lit.of_blocks_addLabel (h : SlotColoring.Lit named b.graph.blocks)
    (hb : Layout done b.graph.blocks)
    (hnew : Reached (b.graph.blocks ++ [⟨b.graph.blocks.length, some l, []⟩])
      b.graph.blocks.length) (hl : b.addLabel l = .ok b') : b'.Lit named :=
  .of_blocks (blocks_addLabel hl) (h.grow hb (some l) (by simp) fun _ => hnew) hnew

theorem Lit.addLabel (h : b.Lit named) (hb : b.Inv done) (hl : b.addLabel l = .ok b') :
    b'.Lit named := by
  refine .of_blocks_addLabel h.blocks hb.layout ?_ hl
  rcases hblocks : b.blocks with _ | ⟨cur, older⟩
  · have hgraph : b.graph.blocks = [] := by simp [graph, hblocks]
    rw [hgraph]
    exact .refl
  · have hgraph : b.graph.blocks = older.reverse ++ [cur] := by simp [graph, hblocks]
    have hnewest := h.newest cur (by simp [hgraph])
    have hlayout := hb.layout
    rw [hgraph] at hnewest hlayout ⊢
    refine hnewest.fall hlayout ?_ (some l)
    exact Block.endsInGoto_of_target?_eq_none (hb.idle cur (by simp [hblocks]))

/-- After a `goto` control comes to a label that an earlier jump names. -/
theorem Lit.skip (h : b.Lit named) (hb : b.Inv done) {m : Label} (hm : m ∈ named)
    (hb' : (b.addJump .always l).addLabel m = .ok b') : b'.Lit (l :: named) := by
  have hlit := h.blocks_addJump hb .always l
  have hlayout := (hb.addJump (e := .jump .always l) rfl).layout
  exact .of_blocks_addLabel hlit hlayout (hlit.jump hlayout (List.mem_cons_of_mem _ hm)) hb'

end Builder

end Blocks

section Guarded

/-- After each `goto` the events place a label that an earlier jump names, where jumps to the
labels `named` came before them. -/
inductive Guarded : List Label → List Event → Prop
  | nil {named : List Label} : Guarded named []
  | instruction {named : List Label} {op : Opcode} {es : List Event} :
      op.target? = none → Guarded named es → Guarded named (.emit op :: es)
  | label {named : List Label} {l : Label} {es : List Event} :
      Guarded named es → Guarded named (.label l :: es)
  | branch {named : List Label} {c : Condition} {l : Label} {es : List Event} :
      c ≠ .always → Guarded (l :: named) es → Guarded named (.jump c l :: es)
  | skip {named : List Label} {l m : Label} {es : List Event} :
      m ∈ named → Guarded (l :: named) es → Guarded named (.jump .always l :: .label m :: es)

namespace Guarded

variable {named named' : List Label} {es fs : List Event}

theorem mono (h : Guarded named es) (hsub : named ⊆ named') : Guarded named' es := by
  induction h generalizing named' with
  | nil => exact .nil
  | instruction hop _ ih => exact .instruction hop (ih hsub)
  | label _ ih => exact .label (ih hsub)
  | branch hc _ ih => exact .branch hc (ih (List.cons_subset_cons _ hsub))
  | skip hm _ ih => exact .skip (hsub hm) (ih (List.cons_subset_cons _ hsub))

theorem append (h : Guarded named es) (h' : Guarded named fs) : Guarded named (es ++ fs) := by
  induction h with
  | nil => exact h'
  | instruction hop _ ih => exact .instruction hop (ih h')
  | label _ ih => exact .label (ih h')
  | branch hc _ ih => exact .branch hc (ih (h'.mono (List.subset_cons_self _ _)))
  | skip hm _ ih => exact .skip hm (ih (h'.mono (List.subset_cons_self _ _)))

/-- What a builder makes of such events leaves no block dark. -/
theorem lit {done : List Event} {b b' : Builder} (h : Guarded named es) (hb : b.Inv done)
    (hlit : b.Lit named) (hfeed : b.feedAll es = .ok b') : ∃ named', b'.Lit named' := by
  induction h generalizing done b with
  | nil =>
    obtain rfl := Except.ok.inj hfeed
    exact ⟨_, hlit⟩
  | @instruction named op es hop _ ih =>
    have hstep : b.feed (.emit op) = .ok (b.push op) := by
      cases op with
      | jump c l => simp [Opcode.target?] at hop
      | load s => rfl
      | store s => rfl
      | other m operands => rfl
    rw [Builder.feedAll, hstep] at hfeed
    exact ih (hb.feed hstep) (hlit.push hb hop) hfeed
  | @label named l es _ ih =>
    rw [Builder.feedAll] at hfeed
    split at hfeed
    · rename_i b₁ hstep
      exact ih (hb.feed hstep) (hlit.addLabel hb hstep) hfeed
    · simp at hfeed
  | @branch named c l es hc _ ih =>
    exact ih (hb.addJump (e := .jump c l) rfl) (hlit.addJump hb hc l) hfeed
  | @skip named l m es hm _ ih =>
    simp only [Builder.feedAll, Builder.feed] at hfeed
    split at hfeed
    · rename_i b₁ hstep
      exact ih ((hb.addJump (e := .jump .always l) rfl).addLabel hstep) (hlit.skip hb hm hstep)
        hfeed
    · simp at hfeed

end Guarded

variable {t : SymbolTable}

theorem Expr.guarded : ∀ (e : Expr) (n : Nat) (named : List Label),
    Guarded named (e.code t n).1.present
  | .int _ _, _, _ => .instruction rfl .nil
  | .bool _ _, _, _ => .instruction rfl .nil
  | .var span x, _, _ => by
    unfold code Code.load
    split
    · exact .instruction rfl .nil
    · exact .nil
  | .unary _ .neg e, n, named => by
    simp only [code, Code.present_append]
    exact (e.guarded n named).append (.instruction rfl .nil)
  | .unary _ .not e, n, named => by
    simp only [code, Code.present_append]
    exact (e.guarded n named).append (.instruction rfl (.instruction rfl .nil))
  | .binary _ (.arith op) l r, n, named => by
    simp only [code, Code.present_append]
    exact ((l.guarded n named).append (r.guarded _ named)).append (.instruction rfl .nil)
  | .binary _ (.compare c) l r, n, named => by
    simp only [code, Code.present_append]
    refine ((l.guarded _ named).append (r.guarded _ named)).append (.branch (by simp) ?_)
    exact .instruction rfl (.skip List.mem_cons_self (.instruction rfl (.label .nil)))

theorem Stmt.guarded_storeCode (span : Span) (x : String) (e : Expr) (n : Nat)
    (named : List Label) : Guarded named (storeCode t span x e n).1.present := by
  unfold storeCode
  split
  · exact .nil
  · rw [Code.present_append]
    exact (e.guarded n named).append (.instruction rfl .nil)

mutual

theorem Stmt.guarded : ∀ (s : Stmt) (n : Nat) (named : List Label),
    Guarded named (s.code t n).1.present
  | .decl span x e, n, named => Stmt.guarded_storeCode span x e n named
  | .assign span x e, n, named => Stmt.guarded_storeCode span x e n named
  | .print _ e, n, named => by
    simp only [code, Code.present_append, Code.present_cons_instruction]
    exact .instruction rfl ((e.guarded n named).append (.instruction rfl .nil))
  | .ifElse _ c yes no, n, named => by
    simp only [code, Code.present_append, Code.present_cons_jump, Code.present_cons_label,
      List.append_assoc, List.cons_append]
    refine (c.guarded _ named).append (.branch (by simp) ((Stmt.guardedAll yes _ _).append ?_))
    exact .skip List.mem_cons_self ((Stmt.guardedAll no _ _).append (.label .nil))
  | .loop _ c body, n, named => by
    simp only [code, Code.present_append, Code.present_cons_jump, Code.present_cons_label,
      List.append_assoc, List.cons_append]
    refine .label ((c.guarded _ named).append (.branch (by simp) ?_))
    exact (Stmt.guardedAll body _ _).append (.skip List.mem_cons_self .nil)

theorem Stmt.guardedAll : ∀ (ss : List Stmt) (n : Nat) (named : List Label),
    Guarded named (Stmt.codeAll t ss n).1.present
  | [], _, _ => .nil
  | s :: ss, n, named => by
    simp only [codeAll, Code.present_append]
    exact (s.guarded n named).append (Stmt.guardedAll ss _ named)

end

theorem Program.guarded {p : Program} {n : Nat} {events : List Event}
    (hcode : p.code t n = events.map .ok) : Guarded [] events := by
  rw [← Code.present_map_ok events, ← hcode, code, Code.present_append]
  exact (Stmt.guardedAll p.body n []).append (.instruction rfl .nil)

end Guarded

section Graphs

variable {head : Head} {events : List Event} {g : BlockGraph}

/-- Removing blocks leaves what is reached along the edges reached. -/
theorem Builder.Inv.reached_purge {b : Builder} (h : b.Inv events) {x y : Block}
    (hx : x ∈ b.graph.purge.blocks) (hy : y ∈ b.graph.purge.blocks)
    (hxy : ReflTransGen (Joined b.graph.blocks) x.id y.id) (hne : y.id ≠ x.id) :
    y.id ∈ b.graph.purge.reachableFrom x.id := by
  have hpath : TransGen b.flow.Adj x.id y.id := by
    rcases ReflTransGen.cases_head hxy with heq | ⟨z, hxz, hzy⟩
    · exact absurd heq.symm hne
    · exact TransGen.mono (fun _ _ => (h.wired.adj_iff _ _).mpr) _ _ (.head' hxz hzy)
  exact BlockGraph.mem_reachableFrom_purge.mpr ⟨BlockGraph.not_removed h.nodup_ids hx,
    BlockGraph.not_removed h.nodup_ids hy, Digraph.mem_reachableFrom.mpr hpath⟩

theorem BlockGraph.reachable_of_guarded (hguarded : Guarded [] events)
    (h : BlockGraph.build head events = .ok g) (hemitted : emitted events ≠ []) :
    ∃ entry, g.entry? = some entry
      ∧ ∀ x ∈ g.blocks, x.id ≠ entry → x.id ∈ g.reachableFrom entry := by
  obtain ⟨b, hfeed, -, rfl⟩ := BlockGraph.build_eq_ok h
  have hb := (Builder.Inv.start head).feedAll events hfeed
  obtain ⟨named, hlit⟩ := hguarded.lit (.start head) (.start head) hfeed
  rcases hblocks : b.graph.blocks with _ | ⟨first, rest⟩
  · have hopcodes := hb.layout.opcodes
    rw [hblocks, List.nil_append] at hopcodes
    exact absurd hopcodes.symm hemitted
  · have hfirst : first.isRemovable = false := hlit.blocks.first first (by rw [hblocks]; rfl)
    have hid : first.id = 0 :=
      hb.layout.id_eq_length (show b.graph.blocks = [] ++ first :: rest from hblocks)
    have hpurge : b.graph.purge.blocks.head? = some first := by simp [purge, hblocks, hfirst]
    refine ⟨first.id, by simp [hpurge, entry?], fun x hx hne => ?_⟩
    obtain ⟨hmem, hkept⟩ := mem_purge_blocks.mp hx
    refine hb.reached_purge (List.mem_of_head? hpurge) hx ?_ hne
    rw [hid]
    exact hlit.blocks.reached x hmem hkept

theorem FlowGraph.exits_eq_singleton {g : FlowGraph} {last : Nat} (hsize : g.size = last + 1)
    (hlast : ∀ j, j ∉ g.succs last) (hbefore : ∀ i < last, ∃ j, j ∈ g.succs i) :
    g.exits = [last] := by
  have hempty : (g.succs last).toList.isEmpty = true :=
    List.isEmpty_iff.mpr (List.eq_nil_iff_forall_not_mem.mpr hlast)
  have hnone : (List.range last).filter (fun i => (g.succs i).toList.isEmpty) = [] := by
    refine List.filter_eq_nil_iff.mpr fun i hi => ?_
    obtain ⟨j, hj⟩ := hbefore i (List.mem_range.mp hi)
    rw [List.isEmpty_iff]
    exact List.ne_nil_of_mem hj
  rw [exits, hsize, List.range_succ, List.filter_append, hnone, List.filter_singleton, hempty]
  rfl

end Graphs

/-- Lowered programs have no dead code and one exit: control may come to every block and to every
instruction, and from every instruction to the `return` at the end. -/
theorem lowered_connected {p : Program} {t : SymbolTable} {n : Nat} {g : BlockGraph}
    (h : p.lower t n = .ok g) :
    (∃ entry, g.entry? = some entry
      ∧ ∀ x ∈ g.blocks, x.id ≠ entry → x.id ∈ g.reachableFrom entry)
    ∧ ∃ last, g.flowGraph.size = last + 1
      ∧ g.instructions[last]?.map Instruction.opcode = some (.other "return" [])
      ∧ (∀ i ≤ last, i ≠ 0 → TransGen (fun i j => j ∈ g.flowGraph.succs i) 0 i)
      ∧ (∀ i ≤ last, i ≠ last → TransGen (fun i j => j ∈ g.flowGraph.succs i) i last)
      ∧ g.flowGraph.exits = [last] := by
  obtain ⟨depth, events, -, hcode, hbuild⟩ := Program.lower_ok h
  obtain ⟨last, hbody, hreturn, hlength⟩ := Program.liesAt hcode
  have hpass := hbody.passable (by omega)
  have hemitted : emitted events ≠ [] := by
    rintro hnil
    simp [hnil] at hlength
  refine ⟨BlockGraph.reachable_of_guarded (Program.guarded hcode) hbuild hemitted, last, ?_⟩
  obtain ⟨b, hb, hpending, rfl⟩ := BlockGraph.exists_of_build hbuild
  have hsize : b.graph.purge.flowGraph.size = last + 1 := hb.size_flowGraph.trans hlength
  have hsuccs : (fun i j => j ∈ b.graph.purge.flowGraph.succs i) = Follows events :=
    funext fun i => funext fun j => propext hb.mem_succs_iff
  have hleaves : ∀ i ≤ last, i ≠ last → TransGen (Follows events) i last := fun i hi hne =>
    (reflTransGen_iff_eq_or_transGen.mp (hpass.leaves i (Nat.zero_le i) hi)).resolve_left hne.symm
  rw [hsuccs]
  refine ⟨hsize, ?_, fun i hi hne => ?_, hleaves, ?_⟩
  · rw [← List.getElem?_map, ← hreturn, ← (hb.finished hpending).opcodes]
    rfl
  · exact (reflTransGen_iff_eq_or_transGen.mp (hpass.enters i (Nat.zero_le i) hi)).resolve_left hne
  · refine FlowGraph.exits_eq_singleton hsize (fun j hj => ?_) fun i hi => ?_
    · obtain ⟨op, hop, hlt, hnext⟩ := hb.mem_succs_iff.mp hj
      rw [hreturn, Option.some.injEq] at hop
      subst hop
      rcases hnext with ⟨rfl, -⟩ | ⟨l, hl, -⟩
      · omega
      · simp [Opcode.target?] at hl
    · obtain ⟨j, hij, -⟩ := TransGen.head'_iff.mp (hleaves i (by omega) (by omega))
      exact ⟨j, hb.mem_succs_iff.mpr hij⟩

theorem lowered_connected_countdown : ∃ g, countdown.lower countdown.symbols 0 = .ok g
    ∧ g.entry? = some 0 ∧ g.blocks.length = 10
    ∧ (∀ x ∈ g.blocks, x.id ≠ 0 → x.id ∈ g.reachableFrom 0) ∧ g.flowGraph.exits = [26] := by
  have hsample : ((countdown.lower countdown.symbols 0).toOption.map fun g =>
      (g.blocks.length, (bodies g.blocks).length, g.entry?)) = some (10, 27, some 0) := by
    decide +kernel
  rcases hg : countdown.lower countdown.symbols 0 with e | g
  · simp [hg, Except.toOption] at hsample
  · obtain ⟨hblocks, hbodies, hentry⟩ : g.blocks.length = 10 ∧ (bodies g.blocks).length = 27
        ∧ g.entry? = some 0 := by simpa [hg, Except.toOption] using hsample
    obtain ⟨⟨entry, hentry', hreach⟩, last, hsize, -, -, -, hexits⟩ := lowered_connected hg
    obtain rfl : 0 = entry := by rw [← Option.some.injEq, ← hentry, hentry']
    obtain rfl : last = 26 := by
      rw [BlockGraph.size_flowGraph, hbodies] at hsize
      omega
    exact ⟨g, rfl, hentry, hblocks, hreach, hexits⟩

end SlotColoring
