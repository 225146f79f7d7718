import SlotColoring.SumOf
import SlotColoring.Text.Blank

/-!
# Words and lines

Cutting a text into lines and a line into words, and measuring it in bytes of its UTF-8 form.
-/

namespace SlotColoring.Text

/-- The number of bytes that the characters take in UTF-8. -/
def byteCount (cs : List Char) : Nat := sumOf Char.utf8Size cs

/-- The lines of a text, each with the line feed that ends it. -/
def lines : List Char → List (List Char)
  | [] => []
  | c :: cs =>
    if c = '\n' then [c] :: lines cs
    else match lines cs with
      | [] => [[c]]
      | l :: ls => (c :: l) :: ls

/-- The longest pieces without a blank. -/
def words : List Char → List (List Char)
  | [] => []
  | c :: cs =>
    if isBlank c then words cs
    else match cs with
      | [] => [[c]]
      | d :: _ =>
        if isBlank d then [c] :: words cs
        else match words cs with
          | [] => [[c]]
          | w :: ws => (c :: w) :: ws

/-- The text without the blanks at its start. -/
def trimStart (cs : List Char) : List Char := cs.dropWhile isBlank

/-- The text without the blanks at its end. -/
def trimEnd (cs : List Char) : List Char := (cs.reverse.dropWhile isBlank).reverse

end SlotColoring.Text
