/-!
# Places in a source text
-/

namespace SlotColoring

/-- The bytes of a source text from `lo` up to but not including `hi`. -/
structure Span where
  lo : Nat
  hi : Nat
deriving DecidableEq

namespace Span

/-- The span of what no source text holds. -/
def nowhere : Span := ⟨0, 0⟩

/-- Starts before the other, or with it and ends before it. -/
def before (a b : Span) : Bool := a.lo < b.lo || (a.lo == b.lo && a.hi < b.hi)

/-- The first of some spans. -/
def first? : List Span → Option Span
  | [] => none
  | a :: l => match first? l with
    | none => some a
    | some b => some (if b.before a then b else a)

end Span

end SlotColoring
