import Mathlib.Data.List.Infix
import SlotColoring.Program.Printer
import SlotColoring.Proofs.Meaning
import SlotColoring.Proofs.WrittenNumbers

/-!
# A program can be read back from its text

An expression shows what it is before the first of the marks that separate words: a number, a word,
the sign of an operator, or nothing at all if it starts with a bracket (`Expr.Front.read_text`).
So an expression can be taken off the front of any text that goes on with a mark
(`Expr.text_append_inj`).  A statement starts with a word of its own kind, or with a name, which is
none of these words; the indentation tells where a block ends, so statements can be taken off in the
same way (`Stmt.takenOff`).  What is left of a program then is all but its spans
(`text_eq_iff`).
-/

namespace SlotColoring

open Text

section Names

/-- The words that the text of a program has other uses for. -/
def keywords : List String := ["true", "false", "int", "print", "if", "else", "while", "class"]

/-- A letter.  Beyond the first 128 every character counts as one, those of all scripts included. -/
def isLetter (c : Char) : Bool := c.isAlpha || 128 ≤ c.toNat

/-- The name is a letter or underscore followed by letters, digits and underscores, and none of the
keywords. -/
def IsIdentifier (x : String) : Prop :=
  ∃ c cs, x.toList = c :: cs ∧ (isLetter c ∨ c = '_')
    ∧ (∀ d ∈ cs, isLetter d ∨ d.isDigit ∨ d = '_') ∧ x ∉ keywords

/-- What can be asked of a program before it is printed: proper names, and no line feed in the two
texts that are copied. -/
structure Program.Printable (p : Program) : Prop where
  names : ∀ x ∈ p.names, IsIdentifier x
  source : '\n' ∉ p.source.toList
  className : '\n' ∉ p.className.toList

end Names

section Bare

/-- The expression without its spans. -/
def Expr.bare : Expr → Expr
  | .int _ n => .int .nowhere n
  | .bool _ b => .bool .nowhere b
  | .var _ x => .var .nowhere x
  | .unary _ op e => .unary .nowhere op e.bare
  | .binary _ op l r => .binary .nowhere op l.bare r.bare

mutual

/-- The statement without its spans. -/
def Stmt.bare : Stmt → Stmt
  | .decl _ x e => .decl .nowhere x e.bare
  | .assign _ x e => .assign .nowhere x e.bare
  | .print _ e => .print .nowhere e.bare
  | .ifElse _ c yes no => .ifElse .nowhere c.bare (Stmt.bareAll yes) (Stmt.bareAll no)
  | .loop _ c body => .loop .nowhere c.bare (Stmt.bareAll body)

/-- The statements of a list without their spans. -/
def Stmt.bareAll : List Stmt → List Stmt
  | [] => []
  | s :: ss => s.bare :: Stmt.bareAll ss

end

/-- The program without its spans. -/
def Program.bare (p : Program) : Program := { p with body := Stmt.bareAll p.body }

theorem Expr.text_bare : ∀ e : Expr, e.bare.text = e.text
  | .int .. => rfl
  | .bool .. => rfl
  | .var .. => rfl
  | .unary _ .neg e => by rw [bare, text, text, e.text_bare]
  | .unary _ .not e => by rw [bare, text, text, e.text_bare]
  | .binary _ op l r => by rw [bare, text, text, l.text_bare, r.text_bare]

mutual

theorem Stmt.text_bare (level : Nat) : ∀ s : Stmt, s.bare.text level = s.text level
  | .decl _ _ e => by rw [bare, text, text, e.text_bare]
  | .assign _ _ e => by rw [bare, text, text, e.text_bare]
  | .print _ e => by rw [bare, text, text, e.text_bare]
  | .ifElse _ c yes [] => by
    rw [bare, text, text, c.text_bare, Stmt.textAll_bare (level + 1) yes, bareAll]
  | .ifElse _ c yes (s :: no) => by
    have hno := Stmt.textAll_bare (level + 1) (s :: no)
    rw [bareAll] at hno
    rw [bare, text, text, c.text_bare, Stmt.textAll_bare (level + 1) yes, bareAll, hno]
    rfl
  | .loop _ c body => by
    rw [bare, text, text, c.text_bare, Stmt.textAll_bare (level + 1) body]

theorem Stmt.textAll_bare (level : Nat) : ∀ ss : List Stmt,
    Stmt.textAll level (Stmt.bareAll ss) = Stmt.textAll level ss
  | [] => rfl
  | s :: ss => by rw [bareAll, textAll, textAll, s.text_bare level, Stmt.textAll_bare level ss]

end

theorem Program.text_bare (p : Program) : p.bare.text = p.text := by
  rw [text, bare, Stmt.textAll_bare, text]

end Bare

section Marks

/-- The text goes on with a character of the kind. -/
def Starts (P : Char → Prop) (r : List Char) : Prop := ∃ c cs, r = c :: cs ∧ P c

/-- Two texts that agree up to their first characters of the kind agree on both sides of it. -/
theorem eq_of_starts {P : Char → Prop} {w w' r r' : List Char} (hw : ∀ c ∈ w, ¬ P c)
    (hw' : ∀ c ∈ w', ¬ P c) (hr : Starts P r) (hr' : Starts P r') (h : w ++ r = w' ++ r') :
    w = w' ∧ r = r' := by
  obtain ⟨c, cs, rfl, hc⟩ := hr
  obtain ⟨c', cs', rfl, hc'⟩ := hr'
  rcases List.append_eq_append_iff.mp h with ⟨as, rfl, hrest⟩ | ⟨as, rfl, hrest⟩
  · cases as with
    | nil => simpa using hrest
    | cons a as =>
      obtain ⟨rfl, -⟩ := List.cons.inj hrest
      exact absurd hc (hw' _ (by simp))
  · cases as with
    | nil => simpa [eq_comm] using hrest
    | cons a as =>
      obtain ⟨rfl, -⟩ := List.cons.inj hrest
      exact absurd hc' (hw _ (by simp))

/-- A character that stands between the words of a text. -/
def IsMark (c : Char) : Prop := c ∈ [' ', '(', ')', ';']

theorem starts_mark {c : Char} (hc : IsMark c) (cs : List Char) : Starts IsMark (c :: cs) :=
  ⟨c, cs, rfl, hc⟩

theorem isMark_space : IsMark ' ' := by simp [IsMark]

theorem isMark_close : IsMark ')' := by simp [IsMark]

theorem isMark_semicolon : IsMark ';' := by simp [IsMark]

theorem le_toNat_of_isLetter {c : Char} (h : isLetter c = true) : 65 ≤ c.toNat := by
  rcases (Bool.or_eq_true ..).mp h with h | h
  · rcases (Bool.or_eq_true ..).mp h with h | h
    · exact UInt32.le_iff_toNat_le.mp (of_decide_eq_true h).1
    · have hlower : 97 ≤ c.toNat :=
        UInt32.le_iff_toNat_le.mp (of_decide_eq_true ((Bool.and_eq_true ..).mp h).1)
      omega
  · have hbeyond := of_decide_eq_true h
    omega

theorem isDigit_of_isLetter {c : Char} (h : isLetter c = true) : c.isDigit = false := by
  rw [← Bool.not_eq_true]
  intro hdigit
  have hle : c.toNat ≤ 57 := (Char.isDigit_iff_toNat.mp hdigit).2
  have hge := le_toNat_of_isLetter h
  omega

/-- Marks and the signs of operators are no part of a word. -/
theorem not_special {c : Char} (h : isLetter c ∨ c.isDigit ∨ c = '_') :
    ¬ IsMark c ∧ c ≠ '-' ∧ c ≠ '!' := by
  refine ⟨fun hmark => ?_, ?_, ?_⟩
  · simp only [IsMark, List.mem_cons, List.not_mem_nil, or_false] at hmark
    rcases hmark with rfl | rfl | rfl | rfl <;> simp [isLetter] at h
  · rintro rfl
    simp [isLetter] at h
  · rintro rfl
    simp [isLetter] at h

namespace IsIdentifier

variable {x : String}

theorem not_mark (h : IsIdentifier x) : ∀ c ∈ x.toList, ¬ IsMark c := by
  obtain ⟨c, cs, hx, hc, hcs, -⟩ := h
  intro d hd
  rw [hx] at hd
  rcases List.mem_cons.mp hd with rfl | hd
  · exact (not_special (hc.imp_right Or.inr)).1
  · exact (not_special (hcs d hd)).1

theorem not_mem_keywords (h : IsIdentifier x) : x ∉ keywords := by
  obtain ⟨-, -, -, -, -, hx⟩ := h
  exact hx

/-- A name does not start like a number or an operation. -/
theorem exists_first (h : IsIdentifier x) : ∃ c cs, x.toList = c :: cs
    ∧ c.isDigit = false ∧ c ≠ '-' ∧ c ≠ '!' := by
  obtain ⟨c, cs, hx, hc, -, -⟩ := h
  refine ⟨c, cs, hx, ?_, (not_special (hc.imp_right Or.inr)).2⟩
  rcases hc with hc | rfl
  · exact isDigit_of_isLetter hc
  · rfl

end IsIdentifier

end Marks

section Fronts

/-- What an expression shows of itself before the first mark of its text. -/
inductive Expr.Front where
  | int (n : Int32)
  | bool (b : Bool)
  | name (x : String)
  | unary (op : UnaryOp)
  | binary
deriving DecidableEq

/-- The character in front of the operand. -/
def UnaryOp.sign : UnaryOp → Char
  | neg => '-'
  | not => '!'

namespace Expr

/-- How the text of an expression begins. -/
def front : Expr → Front
  | .int _ n => .int n
  | .bool _ b => .bool b
  | .var _ x => .name x
  | .unary _ op _ => .unary op
  | .binary .. => .binary

namespace Front

/-- The characters that a front stands for. -/
def text : Front → List Char
  | int n => (toString n.toInt).toList
  | bool b => (if b then "true" else "false").toList
  | name x => x.toList
  | unary op => [op.sign]
  | binary => []

/-- The front with the given text. -/
def read : List Char → Front
  | [] => binary
  | ['-'] => unary .neg
  | ['!'] => unary .not
  | '-' :: cs => int (.ofInt (-Nat.ofDigitChars 10 cs 0))
  | c :: cs =>
    if c.isDigit then int (.ofInt (Nat.ofDigitChars 10 (c :: cs) 0))
    else if c :: cs = "true".toList then bool true
    else if c :: cs = "false".toList then bool false
    else name (String.ofList (c :: cs))

/-- If the front is a name, it is a proper one. -/
def Proper (f : Front) : Prop := ∀ x, f = name x → IsIdentifier x

end Front

/-- What follows the front in the text. -/
def rest : Expr → List Char
  | .int .. => []
  | .bool .. => []
  | .var .. => []
  | .unary _ _ e => '(' :: e.text.toList ++ [')']
  | .binary _ op l r =>
    '(' :: l.text.toList ++ ' ' :: op.symbol.toList ++ ' ' :: r.text.toList ++ [')']

theorem toList_text (e : Expr) : e.text.toList = e.front.text ++ e.rest := by
  cases e with
  | int span n => simp [text, front, Front.text, rest]
  | bool span b => simp [text, front, Front.text, rest]
  | var span x => simp [text, front, Front.text, rest]
  | unary span op e => cases op <;> simp [text, front, Front.text, rest, UnaryOp.sign]
  | binary span op l r => simp [text, front, Front.text, rest]

theorem starts_rest (e : Expr) {r : List Char} (hr : Starts IsMark r) :
    Starts IsMark (e.rest ++ r) := by
  cases e with
  | int span n => exact hr
  | bool span b => exact hr
  | var span x => exact hr
  | unary span op e => exact starts_mark (by simp [IsMark]) _
  | binary span op l r' => exact starts_mark (by simp [IsMark]) _

end Expr

namespace Expr.Front

theorem not_mark {f : Front} (hf : f.Proper) : ∀ c ∈ f.text, ¬ IsMark c := by
  intro c hc
  cases f with
  | int n =>
    rw [text, toList_toString_int, List.mem_append] at hc
    rcases hc with hc | hc
    · split_ifs at hc
      · simp [List.mem_singleton.mp hc, IsMark]
      · simp at hc
    · exact (not_special (.inr (.inl (isDigit_of_mem_digits hc)))).1
  | bool b =>
    have hword : ∀ d ∈ (if b then "true" else "false").toList, ¬ IsMark d := by
      cases b <;> simp [IsMark]
    exact hword c hc
  | name x => exact (hf x rfl).not_mark c hc
  | unary op =>
    rw [text, List.mem_singleton] at hc
    cases op <;> simp [hc, UnaryOp.sign, IsMark]
  | binary => simp [text] at hc

theorem read_cons {c : Char} (hminus : c ≠ '-') (hnot : c ≠ '!') (cs : List Char) :
    read (c :: cs) = if c.isDigit then int (.ofInt (Nat.ofDigitChars 10 (c :: cs) 0))
      else if c :: cs = "true".toList then bool true
      else if c :: cs = "false".toList then bool false
      else name (String.ofList (c :: cs)) := by
  rw [read.eq_def]
  split
  · contradiction
  · exact absurd (List.cons.inj ‹_›).1 hminus
  · exact absurd (List.cons.inj ‹_›).1 hnot
  · exact absurd (List.cons.inj ‹_›).1 hminus
  · rename_i heq
    obtain ⟨rfl, rfl⟩ := List.cons.inj heq
    rfl

theorem read_digits (n : Nat) : read (Nat.toDigits 10 n) = int (.ofInt n) := by
  have hvalue := Nat.ofDigitChars_ten_toDigits (n := n)
  rcases hcs : Nat.toDigits 10 n with _ | ⟨c, cs⟩
  · exact absurd hcs Nat.toDigits_ne_nil
  · have hc : c.isDigit = true := isDigit_of_mem_digits (n := n) (by simp [hcs])
    obtain ⟨-, hminus, hnot⟩ := not_special (.inr (.inl hc))
    rw [read_cons hminus hnot, if_pos hc, ← hcs, hvalue]

theorem read_minus_digits (n : Nat) : read ('-' :: Nat.toDigits 10 n) = int (.ofInt (-n)) := by
  have hvalue := Nat.ofDigitChars_ten_toDigits (n := n)
  rcases hcs : Nat.toDigits 10 n with _ | ⟨c, cs⟩
  · exact absurd hcs Nat.toDigits_ne_nil
  · rw [hcs] at hvalue
    rw [read, hvalue]
    simp

theorem read_name {x : String} (hx : IsIdentifier x) : read x.toList = name x := by
  obtain ⟨c, cs, hcs, hdigit, hminus, hnot⟩ := hx.exists_first
  have htrue : c :: cs ≠ "true".toList := fun h =>
    hx.not_mem_keywords (by simp [String.toList_inj.mp (hcs.trans h), keywords])
  have hfalse : c :: cs ≠ "false".toList := fun h =>
    hx.not_mem_keywords (by simp [String.toList_inj.mp (hcs.trans h), keywords])
  have hback : String.ofList (c :: cs) = x := by rw [← hcs, String.ofList_toList]
  rw [hcs, read_cons hminus hnot, if_neg (by simp [hdigit]), if_neg htrue, if_neg hfalse, hback]

/-- A front is read back from its text: a number starts with a digit, or with a minus sign and a
digit; the sign of an operator stands alone; and a name starts with neither. -/
theorem read_text {f : Front} (hf : f.Proper) : read f.text = f := by
  cases f with
  | int n =>
    rw [text, toList_toString_int]
    split_ifs with hneg
    · have habs : -((n.toInt.natAbs : Nat) : Int) = n.toInt := by omega
      rw [List.singleton_append, read_minus_digits, habs, Int32.ofInt_toInt]
    · have habs : ((n.toInt.natAbs : Nat) : Int) = n.toInt := by omega
      rw [List.nil_append, read_digits, habs, Int32.ofInt_toInt]
  | bool b => cases b <;> rfl
  | name x => exact read_name (hf x rfl)
  | unary op => cases op <;> rfl
  | binary => rfl

end Expr.Front

end Fronts

section Expressions

namespace Expr

theorem proper_front {e : Expr} (he : ∀ x ∈ e.names, IsIdentifier x) : e.front.Proper := by
  intro x hx
  cases e with
  | var span y =>
    obtain rfl := Front.name.inj hx
    exact he y List.mem_cons_self
  | _ => simp [front] at hx

/-- Expressions with the same text in front of a mark show the same front. -/
theorem front_eq {e e' : Expr} (he : ∀ x ∈ e.names, IsIdentifier x)
    (he' : ∀ x ∈ e'.names, IsIdentifier x) {r r' : List Char} (hr : Starts IsMark r)
    (hr' : Starts IsMark r') (h : e.text.toList ++ r = e'.text.toList ++ r') :
    e.front = e'.front ∧ e.rest ++ r = e'.rest ++ r' := by
  rw [toList_text, toList_text, List.append_assoc, List.append_assoc] at h
  have hf := proper_front he
  have hf' := proper_front he'
  obtain ⟨htext, hrest⟩ := eq_of_starts (Front.not_mark hf) (Front.not_mark hf')
    (e.starts_rest hr) (e'.starts_rest hr') h
  refine ⟨?_, hrest⟩
  rw [← Front.read_text hf, htext, Front.read_text hf']

end Expr

theorem BinaryOp.not_mark (op : BinaryOp) : ∀ c ∈ op.symbol.toList, ¬ IsMark c := by
  rcases op with op | op <;> cases op <;>
    simp [BinaryOp.symbol, Arith.symbol, Comparison.symbol, IsMark]

theorem BinaryOp.symbol_injective {op op' : BinaryOp} (h : op.symbol = op'.symbol) : op = op' := by
  rcases op with op | op <;> rcases op' with op' | op' <;> cases op <;> cases op' <;>
    simp [BinaryOp.symbol, Arith.symbol, Comparison.symbol] at h ⊢

/-- The text of an expression can be taken off the front of a text that goes on with a mark. -/
theorem Expr.text_append_inj {e e' : Expr} (he : ∀ x ∈ e.names, IsIdentifier x)
    (he' : ∀ x ∈ e'.names, IsIdentifier x) {r r' : List Char} (hr : Starts IsMark r)
    (hr' : Starts IsMark r') (h : e.text.toList ++ r = e'.text.toList ++ r') :
    e.bare = e'.bare ∧ r = r' := by
  induction e generalizing e' r r' with
  | int span n =>
    obtain ⟨hfront, hrest⟩ := front_eq he he' hr hr' h
    cases e' with
    | int span' n' => exact ⟨by simpa [front, bare] using hfront, hrest⟩
    | _ => simp [front] at hfront
  | bool span b =>
    obtain ⟨hfront, hrest⟩ := front_eq he he' hr hr' h
    cases e' with
    | bool span' b' => exact ⟨by simpa [front, bare] using hfront, hrest⟩
    | _ => simp [front] at hfront
  | var span x =>
    obtain ⟨hfront, hrest⟩ := front_eq he he' hr hr' h
    cases e' with
    | var span' x' => exact ⟨by simpa [front, bare] using hfront, hrest⟩
    | _ => simp [front] at hfront
  | unary span op a ih =>
    obtain ⟨hfront, hrest⟩ := front_eq he he' hr hr' h
    cases e' with
    | unary span' op' a' =>
      have ha' : ∀ x ∈ a'.names, IsIdentifier x := he'
      obtain rfl := Front.unary.inj hfront
      simp only [rest, List.cons_append, List.append_assoc, List.cons.injEq, true_and] at hrest
      obtain ⟨hbare, hrest⟩ := ih he ha' (starts_mark isMark_close _) (starts_mark isMark_close _)
        hrest
      exact ⟨by rw [bare, bare, hbare], (List.cons.inj hrest).2⟩
    | _ => simp [front] at hfront
  | binary span op a b iha ihb =>
    obtain ⟨hfront, hrest⟩ := front_eq he he' hr hr' h
    cases e' with
    | binary span' op' a' b' =>
      obtain ⟨hea, heb⟩ := List.forall_mem_append.mp he
      obtain ⟨hea', heb'⟩ := List.forall_mem_append.mp he'
      simp only [rest, List.cons_append, List.append_assoc, List.cons.injEq, true_and] at hrest
      obtain ⟨ha, hrest⟩ := iha hea hea' (starts_mark isMark_space _) (starts_mark isMark_space _)
        hrest
      obtain ⟨hop, hrest⟩ := eq_of_starts op.not_mark op'.not_mark (starts_mark isMark_space _)
        (starts_mark isMark_space _) (List.cons.inj hrest).2
      obtain ⟨hb, hrest⟩ := ihb heb heb' (starts_mark isMark_close _) (starts_mark isMark_close _)
        (List.cons.inj hrest).2
      have hsame := BinaryOp.symbol_injective (String.toList_inj.mp hop)
      exact ⟨by rw [bare, bare, ha, hb, hsame], (List.cons.inj hrest).2⟩
    | _ => simp [front] at hfront

end Expressions

section Statements

/-- What a statement shows of itself by the first word of its text. -/
inductive Stmt.Front where
  | decl
  | assign (x : String)
  | print
  | ifElse
  | loop
deriving DecidableEq

namespace Stmt

/-- How the text of a statement begins. -/
def front : Stmt → Front
  | .decl .. => .decl
  | .assign _ x _ => .assign x
  | .print .. => .print
  | .ifElse .. => .ifElse
  | .loop .. => .loop

namespace Front

/-- The word that a front stands for. -/
def word : Front → String
  | decl => "int"
  | assign x => x
  | print => "print"
  | ifElse => "if"
  | loop => "while"

/-- The front with the given word. -/
def ofWord (w : String) : Front :=
  if w = "int" then decl
  else if w = "print" then print
  else if w = "if" then ifElse
  else if w = "while" then loop
  else assign w

/-- If the front is a name, it is a proper one. -/
def Proper (f : Front) : Prop := ∀ x, f = assign x → IsIdentifier x

theorem not_mark {f : Front} (hf : f.Proper) : ∀ c ∈ f.word.toList, ¬ IsMark c := by
  cases f with
  | assign x => exact (hf x rfl).not_mark
  | _ => simp [word, IsMark]

theorem ofWord_word {f : Front} (hf : f.Proper) : ofWord f.word = f := by
  cases f with
  | assign x =>
    have hx := (hf x rfl).not_mem_keywords
    simp only [keywords, List.mem_cons, List.not_mem_nil, or_false, not_or] at hx
    simp [ofWord, word, hx]
  | _ => rfl

end Front

/-- The text of a block in its braces. -/
def block (level : Nat) (ss : List Stmt) : List Char :=
  '\x7b' :: '\n' :: (textAll (level + 1) ss).toList ++ (indent level).toList ++ ['\x7d']

/-- What follows the first block of a conditional. -/
def otherwise (level : Nat) : List Stmt → List Char
  | [] => ['\n']
  | s :: ss => ' ' :: 'e' :: 'l' :: 's' :: 'e' :: ' ' :: block level (s :: ss) ++ ['\n']

/-- What follows the first word of the text. -/
def rest (level : Nat) : Stmt → List Char
  | .decl _ x e => ' ' :: x.toList ++ ' ' :: '=' :: ' ' :: e.text.toList ++ [';', '\n']
  | .assign _ _ e => ' ' :: '=' :: ' ' :: e.text.toList ++ [';', '\n']
  | .print _ e => '(' :: e.text.toList ++ [')', ';', '\n']
  | .ifElse _ c yes no =>
    ' ' :: '(' :: c.text.toList ++ ')' :: ' ' :: block level yes ++ otherwise level no
  | .loop _ c body => ' ' :: '(' :: c.text.toList ++ ')' :: ' ' :: block level body ++ ['\n']

theorem toList_text (level : Nat) (s : Stmt) : (s.text level).toList
    = (indent level).toList ++ (s.front.word.toList ++ s.rest level) := by
  cases s with
  | decl span x e => simp [text, front, Front.word, rest]
  | assign span x e => simp [text, front, Front.word, rest]
  | print span e => simp [text, front, Front.word, rest]
  | ifElse span c yes no =>
    cases no <;> simp [text, front, Front.word, rest, block, otherwise]
  | loop span c body => simp [text, front, Front.word, rest, block]

theorem starts_rest (level : Nat) (s : Stmt) (r : List Char) :
    Starts IsMark (s.rest level ++ r) := by
  cases s <;> exact starts_mark (by simp [IsMark]) _

theorem proper_front {s : Stmt} (hs : ∀ x ∈ s.names, IsIdentifier x) : s.front.Proper := by
  intro x hx
  cases s with
  | assign span y e =>
    obtain rfl := Front.assign.inj hx
    exact hs y List.mem_cons_self
  | _ => simp [front] at hx

/-- Statements with the same text show the same front. -/
theorem front_eq {level : Nat} {s s' : Stmt} (hs : ∀ x ∈ s.names, IsIdentifier x)
    (hs' : ∀ x ∈ s'.names, IsIdentifier x) {r r' : List Char}
    (h : (s.text level).toList ++ r = (s'.text level).toList ++ r') :
    s.front = s'.front ∧ s.rest level ++ r = s'.rest level ++ r' := by
  simp only [toList_text, List.append_assoc, List.append_cancel_left_eq] at h
  have hf := proper_front hs
  have hf' := proper_front hs'
  obtain ⟨hword, hrest⟩ := eq_of_starts (Front.not_mark hf) (Front.not_mark hf')
    (s.starts_rest level r) (s'.starts_rest level r') h
  refine ⟨?_, hrest⟩
  rw [← Front.ofWord_word hf, String.toList_inj.mp hword, Front.ofWord_word hf']

/-- The text goes on with a line that is indented to the level, or further. -/
def Indented (level : Nat) (r : List Char) : Prop := (indent level).toList <+: r

theorem indented_text (level : Nat) (s : Stmt) (r : List Char) :
    Indented level ((s.text level).toList ++ r) := by
  rw [toList_text, List.append_assoc]
  exact List.prefix_append ..

/-- A closing brace ends a block: it is indented less than the statements inside. -/
theorem not_indented_close (level : Nat) (r : List Char) :
    ¬ Indented (level + 1) ((indent level).toList ++ '\x7d' :: r) := by
  have hindent : (indent (level + 1)).toList = (indent level).toList ++ [' ', ' ', ' ', ' '] := by
    simp [indent, Nat.mul_add, List.replicate_add]
  rw [Indented, hindent, List.prefix_append_right_inj, List.cons_prefix_cons]
  rintro ⟨h, -⟩
  exact absurd h (by decide)

/-- The blocks inside a statement. -/
def blocks : Stmt → List (List Stmt)
  | .ifElse _ _ yes no => [yes, no]
  | .loop _ _ body => [body]
  | _ => []

/-- The text of the statement can be taken off the front of any text. -/
def TakenOff (level : Nat) (s : Stmt) : Prop := ∀ (s' : Stmt) (r r' : List Char),
  (∀ x ∈ s.names, IsIdentifier x) → (∀ x ∈ s'.names, IsIdentifier x) →
    (s.text level).toList ++ r = (s'.text level).toList ++ r' → s.bare = s'.bare ∧ r = r'

/-- The lines of the statements can be taken off the front of a text that goes on with a line of
less indentation. -/
def AllTakenOff (level : Nat) (ss : List Stmt) : Prop := ∀ (ss' : List Stmt) (r r' : List Char),
  (∀ x ∈ namesAll ss, IsIdentifier x) → (∀ x ∈ namesAll ss', IsIdentifier x) →
    ¬ Indented level r → ¬ Indented level r' →
    (textAll level ss).toList ++ r = (textAll level ss').toList ++ r' →
    bareAll ss = bareAll ss' ∧ r = r'

section Blocks

variable {level : Nat} {ss ss' : List Stmt} {r r' : List Char}

theorem AllTakenOff.block (h : AllTakenOff (level + 1) ss) (hs : ∀ x ∈ namesAll ss, IsIdentifier x)
    (hs' : ∀ x ∈ namesAll ss', IsIdentifier x)
    (heq : Stmt.block level ss ++ r = Stmt.block level ss' ++ r') :
    bareAll ss = bareAll ss' ∧ r = r' := by
  simp only [Stmt.block, List.cons_append, List.append_assoc, List.cons.injEq, true_and] at heq
  obtain ⟨hbare, hrest⟩ := h ss' _ _ hs hs' (not_indented_close level _)
    (not_indented_close level _) heq
  exact ⟨hbare, by simpa using hrest⟩

theorem AllTakenOff.otherwise (h : AllTakenOff (level + 1) ss)
    (hs : ∀ x ∈ namesAll ss, IsIdentifier x) (hs' : ∀ x ∈ namesAll ss', IsIdentifier x)
    (heq : Stmt.otherwise level ss ++ r = Stmt.otherwise level ss' ++ r') :
    bareAll ss = bareAll ss' ∧ r = r' := by
  cases ss with
  | nil =>
    cases ss' with
    | nil => exact ⟨rfl, (List.cons.inj heq).2⟩
    | cons s' ss' => simp [Stmt.otherwise] at heq
  | cons s ss =>
    cases ss' with
    | nil => simp [Stmt.otherwise] at heq
    | cons s' ss' =>
      simp only [Stmt.otherwise, List.cons_append, List.append_assoc, List.cons.injEq,
        true_and] at heq
      obtain ⟨hbare, hrest⟩ := h.block hs hs' heq
      exact ⟨hbare, (List.cons.inj hrest).2⟩

end Blocks

/-- Whether the text of a statement can be taken off is a matter of the blocks inside it. -/
theorem takenOff_of_blocks {level : Nat} {s : Stmt}
    (hblocks : ∀ ss ∈ s.blocks, AllTakenOff (level + 1) ss) : TakenOff level s := by
  intro s' r r' hs hs' h
  obtain ⟨hfront, hrest⟩ := front_eq hs hs' h
  cases s with
  | decl span x e =>
    cases s' with
    | decl span' x' e' =>
      obtain ⟨hx, he⟩ := List.forall_mem_cons.mp hs
      obtain ⟨hx', he'⟩ := List.forall_mem_cons.mp hs'
      simp only [rest, List.cons_append, List.append_assoc, List.cons.injEq, true_and] at hrest
      obtain ⟨hname, hrest⟩ := eq_of_starts hx.not_mark hx'.not_mark (starts_mark isMark_space _)
        (starts_mark isMark_space _) hrest
      simp only [List.cons.injEq, true_and] at hrest
      obtain ⟨hbare, hrest⟩ := e.text_append_inj he he' (starts_mark isMark_semicolon _)
        (starts_mark isMark_semicolon _) hrest
      simp only [List.nil_append, List.cons.injEq, true_and] at hrest
      exact ⟨by rw [bare, bare, hbare, String.toList_inj.mp hname], hrest⟩
    | _ => simp [front] at hfront
  | assign span x e =>
    cases s' with
    | assign span' x' e' =>
      obtain ⟨-, he⟩ := List.forall_mem_cons.mp hs
      obtain ⟨-, he'⟩ := List.forall_mem_cons.mp hs'
      obtain rfl := Front.assign.inj hfront
      simp only [rest, List.cons_append, List.append_assoc, List.cons.injEq, true_and] at hrest
      obtain ⟨hbare, hrest⟩ := e.text_append_inj he he' (starts_mark isMark_semicolon _)
        (starts_mark isMark_semicolon _) hrest
      simp only [List.nil_append, List.cons.injEq, true_and] at hrest
      exact ⟨by rw [bare, bare, hbare], hrest⟩
    | _ => simp [front] at hfront
  | print span e =>
    cases s' with
    | print span' e' =>
      simp only [rest, List.cons_append, List.append_assoc, List.cons.injEq, true_and] at hrest
      obtain ⟨hbare, hrest⟩ := e.text_append_inj hs hs' (starts_mark isMark_close _)
        (starts_mark isMark_close _) hrest
      simp only [List.nil_append, List.cons.injEq, true_and] at hrest
      exact ⟨by rw [bare, bare, hbare], hrest⟩
    | _ => simp [front] at hfront
  | ifElse span c yes no =>
    cases s' with
    | ifElse span' c' yes' no' =>
      obtain ⟨hcy, hn⟩ := List.forall_mem_append.mp hs
      obtain ⟨hc, hy⟩ := List.forall_mem_append.mp hcy
      obtain ⟨hcy', hn'⟩ := List.forall_mem_append.mp hs'
      obtain ⟨hc', hy'⟩ := List.forall_mem_append.mp hcy'
      simp only [rest, List.cons_append, List.append_assoc, List.cons.injEq, true_and] at hrest
      obtain ⟨hcond, hrest⟩ := c.text_append_inj hc hc' (starts_mark isMark_close _)
        (starts_mark isMark_close _) hrest
      simp only [List.cons.injEq, true_and] at hrest
      obtain ⟨hyes, hrest⟩ := (hblocks yes (by simp [blocks])).block hy hy' hrest
      obtain ⟨hno, hrest⟩ := (hblocks no (by simp [blocks])).otherwise hn hn' hrest
      exact ⟨by rw [bare, bare, hcond, hyes, hno], hrest⟩
    | _ => simp [front] at hfront
  | loop span c body =>
    cases s' with
    | loop span' c' body' =>
      obtain ⟨hc, hb⟩ := List.forall_mem_append.mp hs
      obtain ⟨hc', hb'⟩ := List.forall_mem_append.mp hs'
      simp only [rest, List.cons_append, List.append_assoc, List.cons.injEq, true_and] at hrest
      obtain ⟨hcond, hrest⟩ := c.text_append_inj hc hc' (starts_mark isMark_close _)
        (starts_mark isMark_close _) hrest
      simp only [List.cons.injEq, true_and] at hrest
      obtain ⟨hbody, hrest⟩ := (hblocks body (by simp [blocks])).block hb hb' hrest
      exact ⟨by rw [bare, bare, hcond, hbody], (List.cons.inj hrest).2⟩
    | _ => simp [front] at hfront

theorem allTakenOff_nil (level : Nat) : AllTakenOff level [] := by
  intro ss' r r' _ _ hr _ h
  cases ss' with
  | nil => exact ⟨rfl, h⟩
  | cons s' ss' =>
    simp only [textAll, String.toList_append, String.toList_empty, List.nil_append,
      List.append_assoc] at h
    exact absurd (h ▸ indented_text level s' _) hr

theorem AllTakenOff.cons {level : Nat} {s : Stmt} {ss : List Stmt} (h : TakenOff level s)
    (hmore : AllTakenOff level ss) : AllTakenOff level (s :: ss) := by
  intro ss' r r' hs hs' hr hr' heq
  cases ss' with
  | nil =>
    simp only [textAll, String.toList_append, String.toList_empty, List.nil_append,
      List.append_assoc] at heq
    exact absurd (heq ▸ indented_text level s _) hr'
  | cons s' ss' =>
    obtain ⟨hfirst, hrest⟩ := List.forall_mem_append.mp hs
    obtain ⟨hfirst', hrest'⟩ := List.forall_mem_append.mp hs'
    simp only [textAll, String.toList_append, List.append_assoc] at heq
    obtain ⟨hbare, heq⟩ := h s' _ _ hfirst hfirst' heq
    obtain ⟨hbares, heq⟩ := hmore ss' _ _ hrest hrest' hr hr' heq
    exact ⟨by rw [bareAll, bareAll, hbare, hbares], heq⟩

mutual

theorem takenOff (level : Nat) : ∀ s : Stmt, TakenOff level s
  | .decl .. => takenOff_of_blocks (by simp [blocks])
  | .assign .. => takenOff_of_blocks (by simp [blocks])
  | .print .. => takenOff_of_blocks (by simp [blocks])
  | .ifElse _ _ yes no => by
    have hyes := allTakenOff (level + 1) yes
    have hno := allTakenOff (level + 1) no
    exact takenOff_of_blocks (by simp [blocks, hyes, hno])
  | .loop _ _ body => by
    have hbody := allTakenOff (level + 1) body
    exact takenOff_of_blocks (by simp [blocks, hbody])

theorem allTakenOff (level : Nat) : ∀ ss : List Stmt, AllTakenOff level ss
  | [] => allTakenOff_nil level
  | s :: ss => .cons (takenOff level s) (allTakenOff level ss)

end

end Stmt

end Statements

section Programs

theorem Program.toList_text (p : Program) : p.text.toList = "// ".toList ++ (p.source.toList
    ++ '\n' :: ("class ".toList ++ (p.className.toList ++ [' ', '\x7b']
    ++ '\n' :: ((Stmt.textAll 1 p.body).toList ++ ['\x7d', '\n'])))) := by
  simp [text]

/-- A line can be taken off the front of a text. -/
theorem line_append_inj {w w' r r' : List Char} (hw : '\n' ∉ w) (hw' : '\n' ∉ w')
    (h : w ++ '\n' :: r = w' ++ '\n' :: r') : w = w' ∧ r = r' := by
  obtain ⟨hline, hrest⟩ := eq_of_starts (P := (· = '\n')) (fun c hc heq => hw (heq ▸ hc))
    (fun c hc heq => hw' (heq ▸ hc)) ⟨_, _, rfl, rfl⟩ ⟨_, _, rfl, rfl⟩ h
  exact ⟨hline, (List.cons.inj hrest).2⟩

end Programs

/-- Two programs have the same text exactly if they are the same up to their spans. -/
theorem text_eq_iff {p q : Program} (hp : p.Printable) (hq : q.Printable) :
    p.text = q.text ↔ p.bare = q.bare := by
  constructor
  · intro h
    have hchars := congrArg String.toList h
    rw [p.toList_text, q.toList_text, List.append_cancel_left_eq] at hchars
    obtain ⟨hsource, hchars⟩ := line_append_inj hp.source hq.source hchars
    rw [List.append_cancel_left_eq] at hchars
    obtain ⟨hclass, hchars⟩ := line_append_inj (by simpa using hp.className)
      (by simpa using hq.className) hchars
    obtain ⟨hbody, -⟩ := Stmt.allTakenOff 1 p.body q.body _ _ hp.names hq.names
      (Stmt.not_indented_close 0 _) (Stmt.not_indented_close 0 _) hchars
    rw [Program.bare, Program.bare, hbody, String.toList_inj.mp hsource,
      String.toList_inj.mp (List.append_cancel_right hclass)]
  · intro h
    rw [← p.text_bare, h, q.text_bare]

/-- Gives a variable its first value and prints it in a branch. -/
def printing (span : Span) (e : Expr) : Program where
  source := "minus.txt"
  className := "Minus"
  body := [.decl span "x_1" e, .ifElse span (.var span "x_1") [.print span (.var span "x_1")] []]

theorem printable_printing (span : Span) {e : Expr} (he : e.names = []) :
    (printing span e).Printable := by
  have hname : IsIdentifier "x_1" :=
    ⟨'x', ['_', '1'], rfl, by simp [isLetter], by simp [isLetter], by simp [keywords]⟩
  refine ⟨fun x hx => ?_, by simp [printing], by simp [printing]⟩
  obtain rfl : x = "x_1" := by
    simpa [printing, Program.names, Stmt.namesAll, Stmt.names, Expr.names, he] using hx
  exact hname

/-- A negative number and a negation are told apart, and where they stand is not. -/
theorem text_eq_iff_printing :
    (printing ⟨1, 2⟩ (.int ⟨3, 4⟩ (-5))).text
        ≠ (printing ⟨1, 2⟩ (.unary ⟨3, 4⟩ .neg (.int ⟨4, 5⟩ 5))).text
      ∧ (printing ⟨1, 2⟩ (.int ⟨3, 4⟩ (-5))).text = (printing ⟨7, 8⟩ (.int ⟨9, 9⟩ (-5))).text := by
  refine ⟨fun h => ?_, ?_⟩
  · have hbare := (text_eq_iff (printable_printing _ rfl) (printable_printing _ rfl)).mp h
    simp [printing, Program.bare, Stmt.bareAll, Stmt.bare, Expr.bare] at hbare
  · exact (text_eq_iff (printable_printing _ rfl) (printable_printing _ rfl)).mpr rfl

end SlotColoring
