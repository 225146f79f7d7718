import SlotColoring.Opcode

/-!
# Fresh labels

A label made from a kind and a count.  As long as the counts differ, so do the labels.
-/

namespace SlotColoring

/-- The label of a kind with count `n`. -/
def freshLabel (kind : String) (n : Nat) : Label := "L" ++ kind ++ "_" ++ toString n

/-- Labels of the given kinds, counted from `n`. -/
def freshLabels : List String → Nat → List Label
  | [], _ => []
  | kind :: kinds, n => freshLabel kind n :: freshLabels kinds (n + 1)

end SlotColoring
