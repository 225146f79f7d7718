import Mathlib.Logic.Function.Basic
import Mathlib.Logic.Relation
import Mathlib.Tactic.SplitIfs
import SlotColoring.Program.Lowering
import SlotColoring.Proofs.WrittenNumbers

/-!
# What the instructions do

A frame holds an operand stack, a 32-bit integer for each slot and what was printed so far.  An
instruction lets control proceed to the next one, branches to a label, leaves the method, or traps:
it finds no operand of the right kind, or it divides by zero (`Opcode.exec`).

A method runs over its blocks from the entry.  Control proceeds through a block, from its end to the
next block in program order, and from a branch to the block with the label, each time only where the
graph has the edge (`BlockGraph.step`).
-/

namespace SlotColoring

/-- What an instruction does that is no load, store or jump. -/
inductive Operation where
  | const (v : Int32)
  | neg
  | xor
  | arith (op : Arith)
  /-- Pushes the stream that is printed on. -/
  | stream
  | println
  | leave
deriving DecidableEq

/-- The operation that a mnemonic and its operands stand for, if it is a known one. -/
def Operation.ofText? : String → List String → Option Operation
  | "ldc", [n] => (Text.integer? n.toList).map fun i => .const (.ofInt i)
  | "iconst_0", [] => some (.const 0)
  | "iconst_1", [] => some (.const 1)
  | "ineg", [] => some .neg
  | "ixor", [] => some .xor
  | "iadd", [] => some (.arith .add)
  | "isub", [] => some (.arith .sub)
  | "imul", [] => some (.arith .mul)
  | "idiv", [] => some (.arith .div)
  | "irem", [] => some (.arith .rem)
  | "iand", [] => some (.arith .and)
  | "ior", [] => some (.arith .or)
  | "getstatic", ["java/lang/System/out", "Ljava/io/PrintStream;"] => some .stream
  | "invokevirtual", ["java/io/PrintStream/println(I)V"] => some .println
  | "return", [] => some .leave
  | _, _ => none

theorem Operation.ofText?_arith (op : Arith) : ofText? op.mnemonic [] = some (.arith op) := by
  cases op <;> rfl

theorem Operation.ofText?_ldc (v : Int32) :
    ofText? "ldc" [toString v.toInt] = some (.const v) := by
  show (Text.integer? (toString v.toInt).toList).map (fun i => const (.ofInt i)) = _
  rw [Text.integer?_toString, Option.map_some, Int32.ofInt_toInt]

/-- The number of values that an instruction pops, and of those that it pushes after that. -/
structure StackEffect where
  pops : Nat
  pushes : Nat
deriving DecidableEq

/-- How many values an operation takes off the stack and puts onto it. -/
def Operation.effect : Operation → StackEffect
  | const _ => ⟨0, 1⟩
  | neg => ⟨1, 1⟩
  | xor => ⟨2, 1⟩
  | arith _ => ⟨2, 1⟩
  | stream => ⟨0, 1⟩
  | println => ⟨2, 0⟩
  | leave => ⟨0, 0⟩

/-- How many values a jump takes off the stack to decide. -/
def Condition.pops : Condition → Nat
  | always => 0
  | zero _ => 1
  | pair _ => 2

/-- What an instruction does to the depth of the stack, if its meaning is known. -/
def Opcode.effect? : Opcode → Option StackEffect
  | load _ => some ⟨0, 1⟩
  | store _ => some ⟨1, 0⟩
  | jump c _ => some ⟨c.pops, 0⟩
  | other m operands => (Operation.ofText? m operands).map Operation.effect

/-- A value on the operand stack: a number, or the stream that is printed to. -/
inductive Value where
  | int (v : Int32)
  | stream
deriving DecidableEq

/-- The state of a method: its operand stack, its local variables and what it has printed. -/
structure Frame where
  stack : List Value
  slots : Slot → Int32
  output : List Int32

namespace Frame

/-- The frame on entry, with every local variable `0`. -/
def start : Frame := ⟨[], fun _ => 0, []⟩

/-- Puts a value onto the stack. -/
def push (f : Frame) (v : Value) : Frame := { f with stack := v :: f.stack }

/-- Writes a local variable. -/
def store (f : Frame) (s : Slot) (v : Int32) : Frame :=
  { f with slots := Function.update f.slots s v }

/-- Prints a number after the others. -/
def print (f : Frame) (v : Int32) : Frame := { f with output := f.output ++ [v] }

end Frame

/-- What comes of an instruction. -/
inductive Reaction where
  | proceed (f : Frame)
  | branch (l : Label) (f : Frame)
  | leave
  | trap

/-- The result of an arithmetic instruction; there is none for a zero divisor. -/
def Arith.compute? : Arith → Int32 → Int32 → Option Int32
  | add, a, b => some (a + b)
  | sub, a, b => some (a - b)
  | mul, a, b => some (a * b)
  | div, a, b => if b = 0 then none else some (a / b)
  | rem, a, b => if b = 0 then none else some (a % b)
  | and, a, b => some (a &&& b)
  | or, a, b => some (a ||| b)

/-- The comparison of two machine numbers. -/
def Comparison.holds : Comparison → Int32 → Int32 → Bool
  | eq, a, b => a = b
  | ne, a, b => a ≠ b
  | lt, a, b => a < b
  | ge, a, b => b ≤ a
  | gt, a, b => b < a
  | le, a, b => a ≤ b

/-- The right operand lies on top of the left one. -/
def Operation.exec (f : Frame) : Operation → Reaction
  | const v => .proceed (f.push (.int v))
  | neg => match f.stack with
    | .int a :: rest => .proceed { f with stack := .int (-a) :: rest }
    | _ => .trap
  | xor => match f.stack with
    | .int b :: .int a :: rest => .proceed { f with stack := .int (a ^^^ b) :: rest }
    | _ => .trap
  | arith op => match f.stack with
    | .int b :: .int a :: rest => match op.compute? a b with
      | some v => .proceed { f with stack := .int v :: rest }
      | none => .trap
    | _ => .trap
  | stream => .proceed (f.push .stream)
  | println => match f.stack with
    | .int v :: .stream :: rest => .proceed ({ f with stack := rest }.print v)
    | _ => .trap
  | leave => .leave

/-- Carries out an instruction.  It traps if the stack does not hold the operands that it needs. -/
def Opcode.exec (f : Frame) : Opcode → Reaction
  | load s => .proceed (f.push (.int (f.slots s)))
  | store s => match f.stack with
    | .int v :: rest => .proceed ({ f with stack := rest }.store s v)
    | _ => .trap
  | jump .always l => .branch l f
  | jump (.zero c) l => match f.stack with
    | .int a :: rest =>
      if c.holds a 0 then .branch l { f with stack := rest } else .proceed { f with stack := rest }
    | _ => .trap
  | jump (.pair c) l => match f.stack with
    | .int b :: .int a :: rest =>
      if c.holds a b then .branch l { f with stack := rest } else .proceed { f with stack := rest }
    | _ => .trap
  | other m operands => match Operation.ofText? m operands with
    | some op => op.exec f
    | none => .trap

theorem Opcode.exec_other {m : String} {operands : List String} {op : Operation} {f : Frame}
    (h : Operation.ofText? m operands = some op) : (other m operands).exec f = op.exec f := by
  simp [exec, h]

/-- Only a jump branches, and only to the label that it names. -/
theorem Opcode.target?_of_branch {op : Opcode} {l : Label} {f f' : Frame}
    (h : op.exec f = .branch l f') : op.target? = some l := by
  cases op with
  | load s => simp [exec] at h
  | store s =>
    simp only [exec] at h
    split at h <;> simp at h
  | jump c m =>
    have hm : m = l := by
      rcases c with _ | c | c <;> simp only [exec] at h
      · simp only [Reaction.branch.injEq] at h
        exact h.1
      all_goals
        split at h
        · split_ifs at h
          simp only [Reaction.branch.injEq] at h
          exact h.1
        · simp at h
    rw [target?, hm]
  | other m operands =>
    simp only [exec] at h
    split at h
    · rename_i op _
      cases op <;> simp only [Operation.exec] at h <;> repeat' split at h
      all_goals simp at h
    · simp at h

theorem Opcode.isGoto_of_proceed {op : Opcode} {f f' : Frame} (h : op.exec f = .proceed f') :
    op.isGoto = false := by
  cases op with
  | jump c l =>
    cases c with
    | always => simp [exec] at h
    | zero c => rfl
    | pair c => rfl
  | load s => rfl
  | store s => rfl
  | other m operands => rfl

/-- A method in the middle of a block, of which the given number of instructions are done. -/
structure Activation where
  block : Nat
  done : Nat
  frame : Frame

namespace BlockGraph

/-- The block after the one with an id. -/
def idAfter (id : Nat) : List Block → Option Nat
  | a :: c :: bs => if a.id = id then some c.id else idAfter id (c :: bs)
  | _ => none

/-- The start of a block that an edge leads to. -/
def enter (g : BlockGraph) (id : Nat) (dest : Option Nat) (f : Frame) : Option Activation :=
  (dest.filter fun d => d ∈ g.succs id).map fun d => ⟨d, 0, f⟩

/-- The instruction that comes next, if the block is not at its end. -/
def opcodeAt? (g : BlockGraph) (a : Activation) : Option Opcode :=
  (g.block? a.block).bind fun b => b.body[a.done]?.map Instruction.opcode

/-- One instruction, or the passage from the end of a block to the next one. -/
def step (g : BlockGraph) (a : Activation) : Option Activation :=
  match g.opcodeAt? a with
  | none => g.enter a.block (idAfter a.block g.blocks) a.frame
  | some op => match op.exec a.frame with
    | .proceed f => some { a with done := a.done + 1, frame := f }
    | .branch l f => g.enter a.block (g.findLabel? l) f
    | .leave => none
    | .trap => none

/-- Run from the entry with the first frame, the method comes to `return` with the second. -/
def Returns (g : BlockGraph) (f f' : Frame) : Prop :=
  ∃ e ∈ g.entry?, ∃ a, Relation.ReflTransGen (fun x y => g.step x = some y) ⟨e, 0, f⟩ a
    ∧ g.opcodeAt? a = some (.other "return" []) ∧ a.frame = f'

end BlockGraph

end SlotColoring
