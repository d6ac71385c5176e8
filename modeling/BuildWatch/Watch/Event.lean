import BuildWatch.Text.Blank
import BuildWatch.Trigger

namespace BuildWatch.Watch

inductive Event where
  | saved (document : Path)
  | opened (document : Path)
  | run (document : Option Path)
  | stop
  | quit
  deriving Repr

/-- A line that tells nothing: its verb needs a path, or it is not of any known form. -/
inductive EventError where
  | needsPath (verb : String)
  | unrecognized (line : String)
  deriving DecidableEq, Repr

def EventError.message : EventError → String
  | .needsPath verb => "`" ++ verb ++ "` needs a path"
  | .unrecognized line => "unrecognized event: " ++ line

namespace Event

/-- A verb and its argument, which is what remains of the line without blanks around it. -/
def verbAndArgument (line : List Char) : String × Option String :=
  match Text.splitAtBlank line with
  | none => (.ofList line, none)
  | some (verb, rest) =>
    let argument := Text.trim rest
    (.ofList verb, if argument.isEmpty then none else some (.ofList argument))

/-- The event of a line, if it is not blank. Relative paths start at the workspace. -/
def parse (root : Path) (line : String) : Except EventError (Option Event) :=
  let line := Text.trim line.toList
  if line.isEmpty then .ok none
  else
    let path (argument : String) : Path := root.join ⟨argument⟩
    match verbAndArgument line with
    | ("save", some argument) => .ok (some (.saved (path argument)))
    | ("open", some argument) => .ok (some (.opened (path argument)))
    | ("save", none) => .error (.needsPath "save")
    | ("open", none) => .error (.needsPath "open")
    | ("run", argument) => .ok (some (.run (argument.map path)))
    | ("stop", none) => .ok (some .stop)
    | ("quit", none) => .ok (some .quit)
    | ("exit", none) => .ok (some .quit)
    | _ => .error (.unrecognized (.ofList line))

def trigger? (root : Path) : Event → Option Trigger
  | .saved document => some ⟨.saved, root, some document⟩
  | .opened document => some ⟨.opened, root, some document⟩
  | .run document => some ⟨.command, root, document⟩
  | .stop => none
  | .quit => none

end Event

end BuildWatch.Watch
