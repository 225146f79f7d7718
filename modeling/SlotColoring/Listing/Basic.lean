import SlotColoring.BlockGraph.Builder
import SlotColoring.Span
import SlotColoring.SymbolTable

/-!
# Listings

A listing gives a method's frame, its variables and its events, one to a line, and each event
keeps the place that it was read from.
-/

namespace SlotColoring

/-- What is wrong with a listing. -/
inductive ListingFault where
  | unknownDirective (name : String)
  | arity (name : String) (expected : Nat)
  | invalidSlot (word : String)
  | invalidNumber (word : String)
  | notAnInstruction (word : String)
  | duplicateVariable (name : String)
  | build (e : BuildError)
deriving DecidableEq

def ListingFault.message : ListingFault → String
  | unknownDirective name => "unknown directive `" ++ name ++ "`"
  | arity name n => "`" ++ name ++ "` expects " ++ toString n ++ " operand(s)"
  | invalidSlot word => "invalid slot number `" ++ word ++ "`"
  | invalidNumber word => "invalid number `" ++ word ++ "`"
  | notAnInstruction word => "`" ++ word ++ "` is not an instruction"
  | duplicateVariable name => "variable `" ++ name ++ "` or its slot is already declared"
  | build e => e.message

/-- A fault and the place in the text that it is about. -/
structure ListingError where
  fault : ListingFault
  span : Span
deriving DecidableEq

/-- An event and the place that it was read from. -/
structure Located where
  event : Event
  span : Span
deriving DecidableEq

/-- What a listing says: its head, its variables, and its events with their places. -/
structure Listing where
  head : Head
  symbols : SymbolTable
  events : List Located
deriving DecidableEq

namespace Listing

/-- Feeds events up to the first that is refused, whose place goes with the error. -/
def feedAll (b : Builder) : List Located → Except ListingError Builder
  | [] => .ok b
  | e :: es => match b.feed e.event with
    | .ok b' => feedAll b' es
    | .error err => .error ⟨.build err, e.span⟩

/-- The place of the first jump to a label. -/
def firstUse? (l : Listing) (target : Label) : Option Span :=
  (l.events.find? fun e => match e.event with
    | .jump _ t => t == target
    | _ => false).map Located.span

/-- The place of the last event. -/
def lastSpan (l : Listing) : Span := (l.events.getLast?.map Located.span).getD .nowhere

/-- The place that an error of the finished stream is about: the first jump whose label never
comes. -/
def blame (l : Listing) : BuildError → Span
  | .unresolvedLabels ls => (Span.first? (ls.filterMap l.firstUse?)).getD l.lastSpan
  | .duplicateLabel _ => l.lastSpan

/-- The control-flow graph of the events. -/
def build (l : Listing) : Except ListingError BlockGraph :=
  match feedAll (.start l.head) l.events with
  | .error err => .error err
  | .ok b => match b.finish with
    | .ok g => .ok g
    | .error err => .error ⟨.build err, l.blame err⟩

end Listing

end SlotColoring
