import SlotColoring.Slot

/-!
# Instructions and the events that emit them

A jump tests nothing, one operand against zero, or two operands against each other; its mnemonic
tells which (`Condition.ofMnemonic?_mnemonic`).  Of the other instructions only the loads and
stores of slots are told apart.
-/

namespace SlotColoring

/-- The name of a place in the code. -/
abbrev Label := String

/-- An order relation between two integers. -/
inductive Comparison where
  | eq | ne | lt | ge | gt | le
deriving DecidableEq

namespace Comparison

def all : List Comparison := [.eq, .ne, .lt, .ge, .gt, .le]

def mnemonic : Comparison → String
  | eq => "eq"
  | ne => "ne"
  | lt => "lt"
  | ge => "ge"
  | gt => "gt"
  | le => "le"

end Comparison

/-- When a jump is taken. -/
inductive Condition where
  | always
  /-- The operand stands in the relation to zero. -/
  | zero (c : Comparison)
  /-- The two operands stand in the relation. -/
  | pair (c : Comparison)
deriving DecidableEq

namespace Condition

def all : List Condition :=
  always :: Comparison.all.map zero ++ Comparison.all.map pair

def mnemonic : Condition → String
  | always => "goto"
  | zero c => "if" ++ c.mnemonic
  | pair c => "if_icmp" ++ c.mnemonic

/-- The condition of a jump mnemonic. -/
def ofMnemonic? (s : String) : Option Condition := all.find? fun c => c.mnemonic == s

theorem ofMnemonic?_mnemonic (c : Condition) : ofMnemonic? c.mnemonic = some c := by
  rcases c with _ | c | c
  · decide
  · cases c <;> decide
  · cases c <;> decide

end Condition

/-- An instruction. -/
inductive Opcode where
  | load (s : Slot)
  | store (s : Slot)
  | jump (c : Condition) (target : Label)
  | other (mnemonic : String) (operands : List String)
deriving DecidableEq

namespace Opcode

/-- Control never passes to the instruction after this one. -/
def isGoto : Opcode → Bool
  | jump .always _ => true
  | _ => false

/-- The label that a jump names. -/
def target? : Opcode → Option Label
  | jump _ l => some l
  | _ => none

/-- The slot that the instruction writes. -/
def writes? : Opcode → Option Slot
  | store s => some s
  | _ => none

/-- The slot that the instruction reads. -/
def reads? : Opcode → Option Slot
  | load s => some s
  | _ => none

/-- The instruction as it is written in a listing. -/
def text : Opcode → String
  | load s => "iload " ++ toString s
  | store s => "istore " ++ toString s
  | jump c l => c.mnemonic ++ " " ++ l
  | other m operands => " ".intercalate (m :: operands)

end Opcode

/-- One step of emitting code. -/
inductive Event where
  | emit (op : Opcode)
  | label (l : Label)
  | jump (c : Condition) (target : Label)
deriving DecidableEq

/-- The instruction that an event emits; a label emits none. -/
def Event.opcode? : Event → Option Opcode
  | emit op => some op
  | label _ => none
  | jump c l => some (.jump c l)

end SlotColoring
