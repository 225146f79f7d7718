import SlotColoring.Command.Path

/-!
# A folder of files

The folder that the command runs in, without subfolders.  Paths may leave it: the folders around it
can be entered and written to, but what they hold is not known here.
-/

namespace SlotColoring

/-- Files by name. -/
structure Folder where
  files : List (String × ByteArray)

namespace Folder

/-- The contents of a file. -/
def get? (f : Folder) (name : String) : Option ByteArray :=
  (f.files.find? fun x => x.1 = name).map Prod.snd

/-- Gives a file new contents, or makes a new file at the end. -/
def put (f : Folder) (name : String) (contents : ByteArray) : Folder :=
  if (f.get? name).isSome then
    ⟨f.files.map fun x => if x.1 = name then (name, contents) else x⟩
  else ⟨f.files ++ [(name, contents)]⟩

/-- Where the steps of a path have led. -/
inductive Spot where
  /-- The folder itself. -/
  | here
  /-- Some folder around it. -/
  | outside
  /-- A file of the folder. -/
  | file
deriving DecidableEq

/-- Takes one step.  From a file no step leads on, not even one that stays. -/
def enter (f : Folder) : Spot → PathStep → Except PathFault Spot
  | .file, _ => .error .notAFolder
  | s, .stay => .ok s
  | _, .up => .ok .outside
  | s, .down name =>
    if PathStep.nameLimit < name.utf8ByteSize then .error .nameTooLong
    else if s = .here ∧ (f.get? name).isSome then .ok .file
    else .error .notFound

/-- Takes steps one after the other. -/
def walk (f : Folder) : Spot → List PathStep → Except PathFault Spot
  | s, [] => .ok s
  | s, step :: steps => match f.enter s step with
    | .ok s' => f.walk s' steps
    | .error e => .error e

/-- The file that a path names by its last step, there already or not; none if the path leaves the
folder.  A path with a slash at its end asks for a folder. -/
def locate (f : Folder) (path : Path) : Except PathFault (Option String) :=
  match f.walk (if path.fromRoot then .outside else .here) path.steps.dropLast with
  | .error e => .error e
  | .ok .file => .error .notAFolder
  | .ok s => match path.steps.getLast? with
    | some (.down name) =>
      if path.endsInSlash then .error .isAFolder
      else if PathStep.nameLimit < name.utf8ByteSize then .error .nameTooLong
      else .ok (if s = .here then some name else none)
    | _ => .error .isAFolder

/-- The text of the file at a path. -/
def readText? (f : Folder) (path : String) : Option String :=
  match (Path.parse path).bind f.locate with
  | .ok (some name) => (f.get? name).bind String.fromUTF8?
  | _ => none

/-- Writes a text to the file at a path.  A file outside the folder leaves the folder as it is. -/
def writeText (f : Folder) (path : String) (text : String) : Except PathFault Folder :=
  match (Path.parse path).bind f.locate with
  | .ok (some name) => .ok (f.put name text.toUTF8)
  | .ok none => .ok f
  | .error e => .error e

/-- The files that are new or have other contents than before. -/
def changedSince (f before : Folder) : List (String × ByteArray) :=
  f.files.filter fun x => (before.get? x.1).all fun old => old.data ≠ x.2.data

end Folder

end SlotColoring
