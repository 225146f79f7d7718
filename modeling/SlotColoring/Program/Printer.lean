import SlotColoring.Program.Syntax
import SlotColoring.Text.Delimited

/-!
# The text of a program
-/

namespace SlotColoring

open Text

def Arith.symbol : Arith → String
  | add => "+"
  | sub => "-"
  | mul => "*"
  | div => "/"
  | rem => "%"
  | and => "&&"
  | or => "||"

def Comparison.symbol : Comparison → String
  | eq => "=="
  | ne => "!="
  | lt => "<"
  | ge => ">="
  | gt => ">"
  | le => "<="

def BinaryOp.symbol : BinaryOp → String
  | arith op => op.symbol
  | compare c => c.symbol

def Expr.text : Expr → String
  | int _ n => toString n.toInt
  | bool _ b => if b then "true" else "false"
  | var _ x => x
  | unary _ .neg e => "-(" ++ e.text ++ ")"
  | unary _ .not e => "!(" ++ e.text ++ ")"
  | binary _ op l r => "(" ++ l.text ++ " " ++ op.symbol ++ " " ++ r.text ++ ")"

mutual

/-- The lines of a statement at a level of indentation. -/
def Stmt.text (level : Nat) : Stmt → String
  | .decl _ x e => indent level ++ "int " ++ x ++ " = " ++ e.text ++ ";\n"
  | .assign _ x e => indent level ++ x ++ " = " ++ e.text ++ ";\n"
  | .print _ e => indent level ++ "print(" ++ e.text ++ ");\n"
  | .ifElse _ c yes no =>
    indent level ++ "if (" ++ c.text ++ ") \x7b\n" ++ Stmt.textAll (level + 1) yes
      ++ (if no.isEmpty then indent level ++ "\x7d\n"
        else indent level ++ "\x7d else \x7b\n" ++ Stmt.textAll (level + 1) no
          ++ indent level ++ "\x7d\n")
  | .loop _ c body =>
    indent level ++ "while (" ++ c.text ++ ") \x7b\n" ++ Stmt.textAll (level + 1) body
      ++ indent level ++ "\x7d\n"

/-- The lines of some statements at a level of indentation. -/
def Stmt.textAll (level : Nat) : List Stmt → String
  | [] => ""
  | s :: ss => s.text level ++ Stmt.textAll level ss

end

def Program.text (p : Program) : String :=
  "// " ++ p.source ++ "\n" ++ "class " ++ p.className ++ " \x7b\n" ++ Stmt.textAll 1 p.body
    ++ "\x7d\n"

end SlotColoring
