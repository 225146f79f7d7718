import SlotColoring.Listing.Basic
import SlotColoring.Text.Numeral
import SlotColoring.Text.Words

/-!
# Reading listings

A line holds a directive, which starts with a dot, or a label, an instruction, or both.  What a
line says depends on its words only; where its parts stand is measured in bytes from the start of
the text.  A semicolon at the start of a line or after a blank begins a comment, so the semicolon
of a type descriptor does not.
-/

namespace SlotColoring

open Text

namespace Listing

/-- What a directive tells about the method. -/
inductive Directive where
  | source (name : String)
  | className (name : String)
  | stackLimit (n : Nat)
  | localsLimit (n : Nat)
  | bind (name : String) (slot : Slot)
deriving DecidableEq

/-- The slot that a word numbers. -/
def readSlot (word : String) : Except ListingFault Slot :=
  match (numeral? word.toList).bind Slot.ofIndex? with
  | some slot => .ok slot
  | none => .error (.invalidSlot word)

/-- The 64-bit number that a word writes. -/
def readNumber (word : String) : Except ListingFault Nat :=
  match numeral? word.toList with
  | some n => if n < 18446744073709551616 then .ok n else .error (.invalidNumber word)
  | none => .error (.invalidNumber word)

/-- The directive that sets a limit. -/
def readLimit (what number : String) : Except ListingFault Directive :=
  match readNumber number with
  | .error e => .error e
  | .ok n => match what with
    | "stack" => .ok (.stackLimit n)
    | "locals" => .ok (.localsLimit n)
    | other => .error (.unknownDirective (".limit " ++ other))

/-- The directive that declares a variable. -/
def readVariable (name slot : String) : Except ListingFault Directive :=
  match readSlot slot with
  | .error e => .error e
  | .ok s => .ok (.bind name s)

/-- The directive of a name and its operands.  Of the operands of `.class` the last counts: the
others are modifiers. -/
def readDirective (name : String) (operands : List String) : Except ListingFault Directive :=
  match name with
  | ".source" => match operands with
    | [x] => .ok (.source x)
    | _ => .error (.arity name 1)
  | ".class" => match operands.getLast? with
    | some x => .ok (.className x)
    | none => .error (.arity name 1)
  | ".limit" => match operands with
    | [what, number] => readLimit what number
    | _ => .error (.arity name 2)
  | ".var" => match operands with
    | [x, slot] => readVariable x slot
    | _ => .error (.arity name 2)
  | _ => .error (.unknownDirective name)

/-- Loads and stores of the first four slots have mnemonics of their own. -/
def shortForm? : String → Option Opcode
  | "iload_0" => some (.load ⟨0, by decide⟩)
  | "iload_1" => some (.load ⟨1, by decide⟩)
  | "iload_2" => some (.load ⟨2, by decide⟩)
  | "iload_3" => some (.load ⟨3, by decide⟩)
  | "istore_0" => some (.store ⟨0, by decide⟩)
  | "istore_1" => some (.store ⟨1, by decide⟩)
  | "istore_2" => some (.store ⟨2, by decide⟩)
  | "istore_3" => some (.store ⟨3, by decide⟩)
  | _ => none

/-- The event of an instruction whose only operand is a slot. -/
def readOnSlot (op : Slot → Opcode) (mnemonic : String) : List String → Except ListingFault Event
  | [word] => match readSlot word with
    | .ok slot => .ok (.emit (op slot))
    | .error e => .error e
  | _ => .error (.arity mnemonic 1)

/-- The event of an instruction.  A mnemonic with a colon is a label out of place. -/
def readInstruction (mnemonic : String) (operands : List String) : Except ListingFault Event :=
  if ':' ∈ mnemonic.toList then .error (.notAnInstruction mnemonic)
  else match shortForm? mnemonic with
  | some op => if operands.isEmpty then .ok (.emit op) else .error (.arity mnemonic 0)
  | none => match Condition.ofMnemonic? mnemonic with
    | some c => match operands with
      | [target] => .ok (.jump c target)
      | _ => .error (.arity mnemonic 1)
    | none => match mnemonic with
      | "iload" => readOnSlot .load mnemonic operands
      | "istore" => readOnSlot .store mnemonic operands
      | _ => .ok (.emit (.other mnemonic operands))

/-- The label of a word that ends in its only colon. -/
def labelOf? (word : List Char) : Option Label :=
  if word.getLast? = some ':' ∧ word.dropLast ≠ [] ∧ ':' ∉ word.dropLast then
    some (String.ofList word.dropLast)
  else none

/-- The line up to a semicolon at its start or after a blank. -/
def stripComment (afterBlank : Bool) : List Char → List Char
  | [] => []
  | c :: cs => if c = ';' ∧ afterBlank then [] else c :: stripComment (isBlank c) cs

/-- What the lines read so far say.  The size of the frame is known only at the end. -/
structure Draft where
  source : String
  className : String
  stackSize : Nat
  locals : Option Nat
  symbols : SymbolTable
  events : List Located

namespace Draft

/-- The draft before the first line. -/
def blank : Draft := ⟨"", "", 0, none, ∅, []⟩

/-- Adds an event with its place. -/
def addEvent (d : Draft) (e : Event) (span : Span) : Draft :=
  { d with events := d.events ++ [⟨e, span⟩] }

/-- Carries out a directive. -/
def apply (d : Draft) : Directive → Except ListingFault Draft
  | .source x => .ok { d with source := x }
  | .className x => .ok { d with className := x }
  | .stackLimit n => .ok { d with stackSize := n }
  | .localsLimit n => .ok { d with locals := some n }
  | .bind x slot => match d.symbols.declareAt x slot with
    | (t, true) => .ok { d with symbols := t }
    | (_, false) => .error (.duplicateVariable x)

/-- Reads the words of a directive that stands at `span`. -/
def readDirectiveAt (d : Draft) (name : String) (operands : List String) (span : Span) :
    Except ListingError Draft :=
  match readDirective name operands with
  | .error fault => .error ⟨fault, span⟩
  | .ok directive => match d.apply directive with
    | .error fault => .error ⟨fault, span⟩
    | .ok d' => .ok d'

/-- Reads the words of an instruction that stands at `span`. -/
def readInstructionAt (d : Draft) (words : List (List Char)) (span : Span) :
    Except ListingError Draft :=
  match words.map String.ofList with
  | [] => .ok d
  | mnemonic :: operands => match readInstruction mnemonic operands with
    | .error fault => .error ⟨fault, span⟩
    | .ok e => .ok (d.addEvent e span)

/-- Reads the text of a line, which has blanks neither at its start nor at its end and begins
`lo` bytes into the source. -/
def readText (d : Draft) (text : List Char) (lo : Nat) : Except ListingError Draft :=
  let hi := lo + byteCount text
  match words text with
  | [] => .ok d
  | first :: rest =>
    if first.head? = some '.' then
      d.readDirectiveAt (String.ofList first) (rest.map String.ofList) ⟨lo, hi⟩
    else match labelOf? first with
      | some label =>
        let after := trimStart (text.drop first.length)
        (d.addEvent (.label label) ⟨lo, lo + byteCount first⟩).readInstructionAt rest
          ⟨hi - byteCount after, hi⟩
      | none => d.readInstructionAt (first :: rest) ⟨lo, hi⟩

/-- Reads a line that begins `start` bytes into the source. -/
def readLine (d : Draft) (line : List Char) (start : Nat) : Except ListingError Draft :=
  let code := stripComment true line
  d.readText (trimEnd (trimStart code)) (start + byteCount (code.takeWhile isBlank))

/-- Reads lines up to the first that is faulty. -/
def readLines (d : Draft) (start : Nat) : List (List Char) → Except ListingError Draft
  | [] => .ok d
  | line :: lines => match d.readLine line start with
    | .error e => .error e
    | .ok d' => d'.readLines (start + byteCount line) lines

/-- The finished listing.  Unless the frame's size is given it is what the variables need. -/
def finish (d : Draft) : Listing where
  head := ⟨d.source, d.className, d.stackSize, d.locals.getD d.symbols.localCount⟩
  symbols := d.symbols
  events := d.events

end Draft

/-- Reads a listing. -/
def parse (src : String) : Except ListingError Listing :=
  match Draft.blank.readLines 0 (lines src.toList) with
  | .ok d => .ok d.finish
  | .error e => .error e

end Listing

end SlotColoring
