/-!
# Command-line arguments

The command takes one source and a few options, in any order.  Options that are unknown, have a
value they do not take, or ask for help end the reading at once; what is missing or given twice is
told at the end, in a fixed order.
-/

namespace SlotColoring

/-- Why the command cannot run with its arguments. -/
inductive UsageError where
  | missingSource
  | unknownArgument
  | emptyValue
  | unneededValue
  | repeatedOption
  | helpRequested
deriving DecidableEq

/-- What the user is told about the error. -/
def UsageError.message : UsageError → String
  | missingSource => "no source is given"
  | unknownArgument => "an argument is not known"
  | emptyValue => "an option has no value"
  | unneededValue => "an option takes no value"
  | repeatedOption => "an option is given twice"
  | helpRequested => "[-v] [--debug] [--dot-cfg FILE] [--dot-interference FILE] SOURCE"

/-- What the command is asked to do. -/
structure Arguments where
  verbose : Bool
  debug : Bool
  dotCfg : Option String
  dotInterference : Option String
  source : String
deriving DecidableEq

namespace Arguments

/-- An option of the command, help apart. -/
inductive Opt where
  | verbose
  | debug
  | dotCfg
  | dotInterference
deriving DecidableEq

/-- The option is followed by a value. -/
def Opt.takesValue : Opt → Bool
  | verbose => false
  | debug => false
  | dotCfg => true
  | dotInterference => true

/-- The option of a name after two dashes. -/
def Opt.ofName? : String → Option Opt
  | "verbose" => some verbose
  | "debug" => some debug
  | "dot-cfg" => some dotCfg
  | "dot-interference" => some dotInterference
  | _ => none

/-- The arguments read so far: the options in the order given, newest first, each with its
value. -/
structure Scan where
  found : List (Opt × Option String)
  source : Option String
  /-- The newest option still waits for its value. -/
  awaitsValue : Bool
  /-- Two dashes came by, and what follows is no option. -/
  onlySources : Bool

namespace Scan

/-- The scan that has seen no argument. -/
def start : Scan := ⟨[], none, false, false⟩

/-- Takes an argument as the source; there is one at most. -/
def addSource (s : Scan) (arg : String) : Except UsageError Scan :=
  match s.source with
  | none => .ok { s with source := some arg, awaitsValue := false }
  | some _ => .error .unknownArgument

/-- Gives the newest option its value. -/
def giveValue (s : Scan) (value : String) : Scan :=
  { s with
    found := s.found.modifyHead fun o => (o.1, some value)
    awaitsValue := false }

/-- Takes an option, whose value may come with the next argument. -/
def addOption (s : Scan) (o : Opt) (value : Option String) : Scan :=
  { s with found := (o, value) :: s.found, awaitsValue := o.takesValue && value.isNone }

/-- An option written with two dashes and perhaps a value after an equals sign. -/
def addLong (s : Scan) (name : String) (value : Option String) : Except UsageError Scan :=
  if name = "help" then .error (if value.isSome then .unneededValue else .helpRequested)
  else match Opt.ofName? name with
  | none => .error .unknownArgument
  | some o =>
    if !o.takesValue && value.isSome then .error .unneededValue else .ok (s.addOption o value)

/-- Options written as single letters after one dash. -/
def addShorts (s : Scan) : List Char → Except UsageError Scan
  | [] => .ok s
  | 'v' :: cs => (s.addOption .verbose none).addShorts cs
  | 'h' :: _ => .error .helpRequested
  | _ :: _ => .error .unknownArgument

/-- Takes an argument. -/
def add (s : Scan) (arg : String) : Except UsageError Scan :=
  if s.onlySources then s.addSource arg
  else match arg.toList with
  | ['-', '-'] => .ok { s with onlySources := true }
  | '-' :: '-' :: cs =>
    s.addLong (String.ofList (cs.takeWhile (· ≠ '=')))
      (match cs.dropWhile (· ≠ '=') with
        | [] => none
        | _ :: value => some (String.ofList value))
  | '-' :: c :: cs => s.addShorts (c :: cs)
  | _ => if s.awaitsValue then .ok (s.giveValue arg) else s.addSource arg

/-- Takes arguments up to the first that is refused. -/
def addAll (s : Scan) : List String → Except UsageError Scan
  | [] => .ok s
  | arg :: args => match s.add arg with
    | .ok s' => s'.addAll args
    | .error e => .error e

/-- The values that an option comes with, the newest first. -/
def occurrences (s : Scan) (o : Opt) : List (Option String) :=
  (s.found.filter fun x => x.1 = o).map Prod.snd

/-- The value of an option. -/
def value? (s : Scan) (o : Opt) : Option String := (s.occurrences o).findSome? id

/-- What is wrong with the use of one option. -/
def misuse? (s : Scan) (o : Opt) : Option UsageError :=
  if o.takesValue && (s.value? o).isNone then some .emptyValue
  else if 1 < (s.occurrences o).length then some .repeatedOption
  else none

/-- The option that waits for a value and never had one. -/
def unfulfilled (s : Scan) : Bool :=
  s.awaitsValue && match s.found with
    | [] => false
    | (o, _) :: _ => (s.value? o).isNone

/-- The arguments, if nothing is missing and nothing is given twice. -/
def finish (s : Scan) : Except UsageError Arguments :=
  if s.unfulfilled then .error .emptyValue
  else match s.source with
  | none => .error .missingSource
  | some source => match s.found.reverse.findSome? fun x => s.misuse? x.1 with
    | some e => .error e
    | none => .ok
      { verbose := !(s.occurrences .verbose).isEmpty
        debug := !(s.occurrences .debug).isEmpty
        dotCfg := s.value? .dotCfg
        dotInterference := s.value? .dotInterference
        source := source }

end Scan

/-- Reads the arguments of the command. -/
def parse (args : List String) : Except UsageError Arguments :=
  match Scan.start.addAll args with
  | .ok s => s.finish
  | .error e => .error e

end Arguments

end SlotColoring
