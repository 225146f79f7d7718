import SlotColoring.Interference.Coloring
import SlotColoring.Listing.Parser
import SlotColoring.Program.Lowering

/-!
# From a program or a listing to registers
-/

namespace SlotColoring

/-- A control-flow graph with what register allocation makes of it. -/
structure Compiled where
  graph : BlockGraph
  allocated : Allocated

/-- Why there is no allocation for a class. -/
inductive CompileError where
  | lowering (className : String) (e : LoweringError)
  | registers (className : String) (e : UndeclaredSlot)
deriving DecidableEq

/-- The stage that failed. -/
def CompileError.stage : CompileError → String
  | lowering className _ => "failed to lower `" ++ className ++ "`"
  | registers className _ => "register allocation failed for `" ++ className ++ "`"

def CompileError.message : CompileError → String
  | lowering _ e => e.message
  | registers _ e => e.message

/-- Allocates registers for a finished graph. -/
def BlockGraph.compile (g : BlockGraph) (t : SymbolTable) : Except CompileError Compiled :=
  match g.allocate t with
  | .ok a => .ok ⟨g, a⟩
  | .error e => .error (.registers g.head.className e)

/-- Lowers a program, with labels counted from `n`, and allocates its registers. -/
def Program.compile (t : SymbolTable) (p : Program) (n : Nat) : Except CompileError Compiled :=
  match p.lower t n with
  | .ok g => g.compile t
  | .error e => .error (.lowering p.className e)

/-- Reads a listing and builds its graph. -/
def Listing.read (src : String) : Except ListingError (BlockGraph × SymbolTable) :=
  match Listing.parse src with
  | .error e => .error e
  | .ok l => match l.build with
    | .error e => .error e
    | .ok g => .ok (g, l.symbols)

end SlotColoring
