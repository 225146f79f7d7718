import SlotColoring.Command.Basic

/-!
# The program

Runs the command on the files of the current directory.  Reports and errors go to the error
stream.
-/

open SlotColoring

/-- The text of a file, if it can be read. -/
def readSource (path : String) : IO (Option String) := do
  try
    return some (← IO.FS.readFile path)
  catch _ =>
    return none

/-- Shows the reports that the user wants to see. -/
def showJournal (debug : Bool) (journal : Journal) : IO Unit := do
  for r in journal do
    if r.level.isShown debug then
      IO.eprintln ("[" ++ r.level.name ++ "] " ++ r.text)

/-- Writes a drawing and reports how that went. -/
def writeDrawing (d : Drawing) : IO Report := do
  try
    IO.FS.writeFile d.path d.text
    return .fileWritten d.path
  catch e =>
    return .fileNotWritten d.path (toString e)

def main (args : List String) : IO UInt32 := do
  match Arguments.parse args with
  | .error .helpRequested =>
    IO.println UsageError.helpRequested.message
    return 0
  | .error e =>
    IO.eprintln ("error: " ++ e.message)
    return 2
  | .ok args =>
    let run := Command.run args (← readSource args.source)
    showJournal args.debug run.journal
    IO.print run.printed
    for d in run.drawings do
      showJournal args.debug [← writeDrawing d]
    match run.outcome with
    | .ok _ => return 0
    | .error e =>
      if let .listing err := e then
        IO.eprintln (args.source ++ ":" ++ toString err.span.lo ++ "-" ++ toString err.span.hi
          ++ ": " ++ err.fault.message)
      IO.eprintln ("error: " ++ e.message)
      return 1
