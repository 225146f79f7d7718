/-!
# Delimited text

A list of texts written between two marks, with a third between neighbours.
-/

namespace SlotColoring.Text

/-- The items between `left` and `right`, separated by `sep`. -/
def delimited (left sep right : String) (items : List String) : String :=
  left ++ sep.intercalate items ++ right

/-- The items in square brackets, separated by commas. -/
def bracketed (items : List String) : String := delimited "[" ", " "]" items

/-- The items in braces, separated by commas. -/
def braced (items : List String) : String := delimited "\x7b" ", " "\x7d" items

/-- The text of `n` levels of indentation, four blanks each. -/
def indent (n : Nat) : String := String.ofList (List.replicate (4 * n) ' ')

/-- The text with blanks in front up to a width. -/
def padLeft (width : Nat) (s : String) : String :=
  String.ofList (List.replicate (width - s.length) ' ') ++ s

end SlotColoring.Text
