/-!
# Paths

A path is cut at its slashes into steps.  A dot stays in a folder, two dots go up to the folder
around it, and any other name goes down.  Several slashes in a row count as one.
-/

namespace SlotColoring

/-- Why a path does not lead to a file. -/
inductive PathFault where
  | notFound
  | notAFolder
  | isAFolder
  | nameTooLong
  | nulInName
deriving DecidableEq

def PathFault.message : PathFault → String
  | notFound => "No such file or directory (os error 2)"
  | notAFolder => "Not a directory (os error 20)"
  | isAFolder => "Is a directory (os error 21)"
  | nameTooLong => "File name too long (os error 36)"
  | nulInName => "file name contained an unexpected NUL byte"

/-- One step of a path. -/
inductive PathStep where
  | stay
  | up
  | down (name : String)
deriving DecidableEq

/-- The steps of a path, from the root or from the folder where it is used. -/
structure Path where
  fromRoot : Bool
  steps : List PathStep
  endsInSlash : Bool
deriving DecidableEq

/-- The longest name of a file, in bytes. -/
def PathStep.nameLimit : Nat := 255

/-- The step of a part between slashes. -/
def PathStep.ofPart : List Char → PathStep
  | ['.'] => stay
  | ['.', '.'] => up
  | name => down (String.ofList name)

namespace Path

/-- The longest path, in bytes. -/
def limit : Nat := 4095

/-- The parts of a path between slashes. -/
def parts : List Char → List (List Char)
  | [] => [[]]
  | c :: cs => match parts cs with
    | [] => [[c]]
    | p :: ps => if c = '/' then [] :: p :: ps else (c :: p) :: ps

/-- Reads a path.  There is nothing at the empty path. -/
def parse (text : String) : Except PathFault Path :=
  let cs := text.toList
  if '\x00' ∈ cs then .error .nulInName
  else if cs = [] then .error .notFound
  else if limit < text.utf8ByteSize then .error .nameTooLong
  else .ok
    { fromRoot := cs.head? = some '/'
      steps := ((parts cs).filter (· ≠ [])).map PathStep.ofPart
      endsInSlash := cs.getLast? = some '/' }

end Path

end SlotColoring
