/-!
# Text inside quotation marks

Two ways to write a text between quotation marks: with a backslash before every quotation mark and
every backslash (`escaped`), or before the quotation marks only (`quotesEscaped`).
-/

namespace SlotColoring.Text

/-- A character of a label with its escape. -/
def escapedChar (c : Char) : List Char :=
  if c = '\\' then ['\\', '\\'] else if c = '"' then ['\\', '"'] else [c]

/-- A backslash before every quotation mark and every backslash. -/
def escaped (s : String) : String := String.ofList (s.toList.flatMap escapedChar)

/-- A backslash before every quotation mark. -/
def quotesEscaped (s : String) : String :=
  String.ofList (s.toList.flatMap fun c => if c = '"' then ['\\', '"'] else [c])

end SlotColoring.Text
