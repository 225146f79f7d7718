import SlotColoring.Opcode
import SlotColoring.Span
import SlotColoring.SymbolTable

/-!
# Programs

Type-checked programs over integer variables: expressions, statements and their nesting.  Every
node carries its span in the source text.
-/

namespace SlotColoring

/-- Operators on one integer. -/
inductive UnaryOp where
  | neg
  /-- The other truth value. -/
  | not
deriving DecidableEq

/-- Operators on two integers that have an instruction of their own. -/
inductive Arith where
  | add | sub | mul | div | rem | and | or
deriving DecidableEq

/-- Operators on two integers. -/
inductive BinaryOp where
  | arith (op : Arith)
  | compare (c : Comparison)
deriving DecidableEq

/-- Expressions, each with the span that it was read from. -/
inductive Expr where
  | int (span : Span) (n : Int32)
  | bool (span : Span) (b : Bool)
  | var (span : Span) (x : String)
  | unary (span : Span) (op : UnaryOp) (e : Expr)
  | binary (span : Span) (op : BinaryOp) (l r : Expr)
deriving DecidableEq

/-- Statements, each with the span that it was read from. -/
inductive Stmt where
  /-- A new variable with its first value. -/
  | decl (span : Span) (x : String) (e : Expr)
  | assign (span : Span) (x : String) (e : Expr)
  | print (span : Span) (e : Expr)
  | ifElse (span : Span) (c : Expr) (yes no : List Stmt)
  | loop (span : Span) (c : Expr) (body : List Stmt)

/-- A class with one method. -/
structure Program where
  source : String
  className : String
  body : List Stmt

mutual

/-- The names that a statement declares, in the order of the text. -/
def Stmt.declared : Stmt → List String
  | .decl _ x _ => [x]
  | .assign .. => []
  | .print .. => []
  | .ifElse _ _ yes no => Stmt.declaredAll yes ++ Stmt.declaredAll no
  | .loop _ _ body => Stmt.declaredAll body

/-- The names that some statements declare. -/
def Stmt.declaredAll : List Stmt → List String
  | [] => []
  | s :: ss => s.declared ++ Stmt.declaredAll ss

end

/-- The symbol table that numbers the declarations of a program in the order of the text. -/
def Program.symbols (p : Program) : SymbolTable :=
  (∅ : SymbolTable).declareAll (Stmt.declaredAll p.body)

end SlotColoring
