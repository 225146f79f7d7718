import SlotColoring.BlockGraph.Drawing
import SlotColoring.BlockGraph.Printer
import SlotColoring.Command.Arguments
import SlotColoring.Command.Folder
import SlotColoring.Journal

/-!
# The command

Reads a listing, allocates its registers and prints them, with the control-flow graph and the live
sets if asked to.  Drawings of the graphs are written to files; one that cannot be written is
reported and otherwise passed over.
-/

namespace SlotColoring

/-- Why the command fails. -/
inductive CommandError where
  | unreadable (path : String)
  | listing (e : ListingError)
  | compile (e : CompileError)
deriving DecidableEq

def CommandError.message : CommandError → String
  | unreadable path => "failed to open file: " ++ path
  | listing _ => "aborting due to the error above"
  | compile e => e.stage

/-- A drawing to be written to a file. -/
structure Drawing where
  path : String
  lines : List String

def Drawing.text (d : Drawing) : String := String.join (d.lines.map (· ++ "\n"))

namespace Command

/-- What the command prints and writes, and how it ends. -/
structure Run where
  printed : String
  drawings : List Drawing
  outcome : Except CommandError Allocation
  journal : Journal

/-- A heading and a text. -/
def titled (name text : String) : String := "[[" ++ name ++ "]]\n" ++ text ++ "\n"

/-- The drawings that are asked for. -/
def drawings (args : Arguments) (c : Compiled) : List Drawing :=
  (args.dotCfg.map fun path => ⟨path, c.graph.drawing⟩).toList
    ++ (args.dotInterference.map fun path => ⟨path, c.allocated.interference.drawing⟩).toList

/-- Runs the command on the text of its source, if that could be read. -/
def run (args : Arguments) (text : Option String) : Run :=
  match text with
  | none => ⟨"", [], .error (.unreadable args.source), []⟩
  | some src => match Listing.read src with
    | .error e => ⟨"", [], .error (.listing e), Listing.readJournal src⟩
    | .ok (g, t) =>
      let graph := if args.verbose then titled "cfg" g.text else ""
      let journal := Listing.readJournal src ++ g.allocateJournal t
      match g.compile t with
      | .error e => ⟨graph, [], .error (.compile e), journal⟩
      | .ok c =>
        let live :=
          if args.verbose then titled "liveness" (c.allocated.flow.text c.allocated.live) else ""
        let registers := titled "allocation" c.allocated.allocation.text
        ⟨graph ++ live ++ registers, drawings args c, .ok c.allocated.allocation, journal⟩

/-- Writes drawings one after the other. -/
def writeAll (f : Folder) : List Drawing → Folder × Journal
  | [] => (f, [])
  | d :: ds => match f.writeText d.path d.text with
    | .ok f' =>
      let rest := writeAll f' ds
      (rest.1, .fileWritten d.path :: rest.2)
    | .error e =>
      let rest := writeAll f ds
      (rest.1, .fileNotWritten d.path e.message :: rest.2)

/-- Runs the command in a folder. -/
def runIn (f : Folder) (args : Arguments) : Run × Folder :=
  let r := run args (f.readText? args.source)
  let written := writeAll f r.drawings
  ({ r with journal := r.journal ++ written.2 }, written.1)

end Command

end SlotColoring
