import SlotColoring.BlockGraph.Builder
import SlotColoring.FreshLabel
import SlotColoring.OperandStack

/-!
# Lowering programs to instructions

The code of a program is the list of events that emit it.  A variable without a slot stands in the
code where its instruction would be; the first of them is the error of the whole (`Code.events`).
Labels are fresh: each construct takes its own before its parts take theirs.
-/

namespace SlotColoring

/-- A variable without a slot, where it is used. -/
structure Undeclared where
  name : String
  span : Span
deriving DecidableEq

/-- Events, and variables without a slot in place of the events that need it. -/
abbrev Code := List (Except Undeclared Event)

namespace Code

/-- The events, if every variable has its slot, and else the first that has none. -/
def events : Code → Except Undeclared (List Event)
  | [] => .ok []
  | .error u :: _ => .error u
  | .ok e :: code => match events code with
    | .ok es => .ok (e :: es)
    | .error u => .error u

/-- The events before the first variable without a slot. -/
def emitted : Code → List Event
  | .ok e :: code => e :: emitted code
  | _ => []

def instruction (mnemonic : String) (operands : List String) : Except Undeclared Event :=
  .ok (.emit (.other mnemonic operands))

def jump (c : Condition) (target : Label) : Except Undeclared Event := .ok (.jump c target)

def label (l : Label) : Except Undeclared Event := .ok (.label l)

/-- The instruction that loads a variable. -/
def load (t : SymbolTable) (x : String) (span : Span) : Except Undeclared Event :=
  match t.slot? x with
  | some slot => .ok (.emit (.load slot))
  | none => .error ⟨x, span⟩

end Code

open Code

def Arith.mnemonic : Arith → String
  | add => "iadd"
  | sub => "isub"
  | mul => "imul"
  | div => "idiv"
  | rem => "irem"
  | and => "iand"
  | or => "ior"

/-- The code that leaves the value of an expression on the stack, with labels counted from `n`,
and the count after it. -/
def Expr.code (t : SymbolTable) : Expr → Nat → Code × Nat
  | .int _ i, n => ([instruction "ldc" [toString i.toInt]], n)
  | .bool _ b, n => ([instruction (if b then "iconst_1" else "iconst_0") []], n)
  | .var span x, n => ([load t x span], n)
  | .unary _ .neg e, n =>
    let c := e.code t n
    (c.1 ++ [instruction "ineg" []], c.2)
  | .unary _ .not e, n =>
    let c := e.code t n
    (c.1 ++ [instruction "iconst_1" [], instruction "ixor" []], c.2)
  | .binary _ (.arith op) l r, n =>
    let cl := l.code t n
    let cr := r.code t cl.2
    (cl.1 ++ cr.1 ++ [instruction op.mnemonic []], cr.2)
  | .binary _ (.compare c) l r, n =>
    let yes := freshLabel "true" n
    let done := freshLabel "cmp" (n + 1)
    let cl := l.code t (n + 2)
    let cr := r.code t cl.2
    (cl.1 ++ cr.1 ++ [jump (.pair c) yes, instruction "iconst_0" [], jump .always done,
      label yes, instruction "iconst_1" [], label done], cr.2)

/-- The code that stores the value of an expression in a variable.  The variable's slot is looked
up before the expression is visited. -/
def Stmt.storeCode (t : SymbolTable) (span : Span) (x : String) (e : Expr) (n : Nat) :
    Code × Nat :=
  match t.slot? x with
  | none => ([.error ⟨x, span⟩], n)
  | some slot =>
    let c := e.code t n
    (c.1 ++ [.ok (.emit (.store slot))], c.2)

mutual

/-- The code of a statement, with labels counted from `n`, and the count after it. -/
def Stmt.code (t : SymbolTable) : Stmt → Nat → Code × Nat
  | .decl span x e, n => Stmt.storeCode t span x e n
  | .assign span x e, n => Stmt.storeCode t span x e n
  | .print _ e, n =>
    let c := e.code t n
    (instruction "getstatic" ["java/lang/System/out", "Ljava/io/PrintStream;"] :: c.1
      ++ [instruction "invokevirtual" ["java/io/PrintStream/println(I)V"]], c.2)
  | .ifElse _ c yes no, n =>
    let otherwise := freshLabel "else" n
    let done := freshLabel "endif" (n + 1)
    let cc := c.code t (n + 2)
    let cy := Stmt.codeAll t yes cc.2
    let cn := Stmt.codeAll t no cy.2
    (cc.1 ++ jump (.zero .eq) otherwise :: cy.1 ++ jump .always done :: label otherwise :: cn.1
      ++ [label done], cn.2)
  | .loop _ c body, n =>
    let again := freshLabel "while" n
    let done := freshLabel "done" (n + 1)
    let cc := c.code t (n + 2)
    let cb := Stmt.codeAll t body cc.2
    (label again :: cc.1 ++ jump (.zero .eq) done :: cb.1
      ++ [jump .always again, label done], cb.2)

/-- The code of some statements one after the other. -/
def Stmt.codeAll (t : SymbolTable) : List Stmt → Nat → Code × Nat
  | [], n => ([], n)
  | s :: ss, n =>
    let cs := s.code t n
    let css := Stmt.codeAll t ss cs.2
    (cs.1 ++ css.1, css.2)

end

/-- The code of a program, with labels counted from `n`. -/
def Program.code (t : SymbolTable) (p : Program) (n : Nat) : Code :=
  (Stmt.codeAll t p.body n).1 ++ [instruction "return" []]

/-- Why a program has no control-flow graph. -/
inductive LoweringError where
  | undeclared (u : Undeclared)
  | stack (e : StackError)
  | build (e : BuildError)
deriving DecidableEq

def LoweringError.message : LoweringError → String
  | undeclared u => "variable `" ++ u.name ++ "` has no slot in the symbol table"
  | stack e => e.message
  | build e => e.message

/-- The control-flow graph of a program, with labels counted from `n`. -/
def Program.lower (t : SymbolTable) (p : Program) (n : Nat) : Except LoweringError BlockGraph :=
  match p.maxStackDepth with
  | .error e => .error (.stack e)
  | .ok depth => match (p.code t n).events with
    | .error u => .error (.undeclared u)
    | .ok events =>
      match BlockGraph.build ⟨p.source, p.className, depth, t.localCount⟩ events with
      | .error e => .error (.build e)
      | .ok g => .ok g

end SlotColoring
