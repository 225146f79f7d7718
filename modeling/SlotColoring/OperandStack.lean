import SlotColoring.Program.Syntax

/-!
# The depth of the operand stack

The code of a program pushes and pops in an order that the syntax tells (`Stmt.stackMoves`).
Following these moves gives the depth that the method's frame has to provide.
-/

namespace SlotColoring

/-- A value goes onto the stack or comes off it. -/
inductive StackMove where
  | push
  | pop
deriving DecidableEq

/-- Why a move cannot be made. -/
inductive StackError where
  | underflow
deriving DecidableEq

def StackError.message : StackError → String
  | underflow => "operand stack underflow"

/-- The depth of a stack and the greatest depth that it has had. -/
structure OperandStack where
  depth : Nat
  maxDepth : Nat
deriving DecidableEq

namespace OperandStack

instance : EmptyCollection OperandStack := ⟨⟨0, 0⟩⟩

/-- Puts a value onto the stack. -/
def push (m : OperandStack) : OperandStack := ⟨m.depth + 1, max m.maxDepth (m.depth + 1)⟩

/-- Takes a value off the stack, if there is one. -/
def pop (m : OperandStack) : Except StackError OperandStack :=
  if m.depth = 0 then .error .underflow else .ok { m with depth := m.depth - 1 }

/-- Makes a move, if the stack allows it. -/
def move (m : OperandStack) : StackMove → Except StackError OperandStack
  | .push => .ok m.push
  | .pop => m.pop

/-- Makes moves up to the first that cannot be made. -/
def run (m : OperandStack) : List StackMove → Except StackError OperandStack
  | [] => .ok m
  | x :: xs => match m.move x with
    | .ok m' => m'.run xs
    | .error e => .error e

end OperandStack

open StackMove

/-- What the code of an expression does to the stack.  The other truth value is an exclusive or
with one. -/
def Expr.stackMoves : Expr → List StackMove
  | int .. => [push]
  | bool .. => [push]
  | var .. => [push]
  | unary _ .neg e => e.stackMoves ++ [pop, push]
  | unary _ .not e => e.stackMoves ++ [push, pop, pop, push]
  | binary _ _ l r => l.stackMoves ++ r.stackMoves ++ [pop, pop, push]

mutual

/-- What the code of a statement does to the stack, one branch after the other.  What is printed
is pushed on top of the stream that prints it. -/
def Stmt.stackMoves : Stmt → List StackMove
  | .decl _ _ e => e.stackMoves ++ [pop]
  | .assign _ _ e => e.stackMoves ++ [pop]
  | .print _ e => push :: e.stackMoves ++ [pop, pop]
  | .ifElse _ c yes no =>
    c.stackMoves ++ [pop] ++ Stmt.stackMovesAll yes ++ Stmt.stackMovesAll no
  | .loop _ c body => c.stackMoves ++ [pop] ++ Stmt.stackMovesAll body

/-- What the statements of a list do to the stack, one after the other. -/
def Stmt.stackMovesAll : List Stmt → List StackMove
  | [] => []
  | s :: ss => s.stackMoves ++ Stmt.stackMovesAll ss

end

/-- The stack after the code of a program. -/
def Program.finalStack (p : Program) : Except StackError OperandStack :=
  (∅ : OperandStack).run (Stmt.stackMovesAll p.body)

/-- The deepest operand stack that the code of a program needs. -/
def Program.maxStackDepth (p : Program) : Except StackError Nat :=
  p.finalStack.map OperandStack.maxDepth

end SlotColoring
