import BuildWatch.Diagnostic.Store
import BuildWatch.Settings.Loading
import BuildWatch.Watch

namespace BuildWatch

structure FatalError where
  message : String
  cause : Option String := none
  deriving DecidableEq, Repr

def FatalError.text (e : FatalError) : String :=
  "Error: " ++ e.message ++ "\n" ++
    match e.cause with
    | some cause =>
      "\nCaused by:\n    " ++ .ofList (Text.indentRest cause.toList) ++ "\n"
    | none => ""

namespace CommandLine

def usage : String :=
  "Usage: stackrunner [--watch] [WORKSPACE]\n" ++
  "\n" ++
  "Runs the configured build tool against WORKSPACE (default: current directory)\n" ++
  "and prints its errors as diagnostics.\n" ++
  "\n" ++
  "Options:\n" ++
  "  -w, --watch   Read editor events (save/open/run/stop/quit) from stdin\n" ++
  "  -h, --help    Show this message\n" ++
  "\n" ++
  "Configuration: ~/.stackrunner/config.toml ([runner] table).\n" ++
  "STACKRUNNER_SERVER_BINARY overrides runner.server_binary.\n"

inductive Request where
  | help
  | run (watch : Bool) (workspace : Option Path)
  deriving Repr

inductive UsageError where
  | unknownOption (option : String)
  | severalWorkspaces
  deriving DecidableEq, Repr

def UsageError.message : UsageError → String
  | .unknownOption option => "unknown option: " ++ option
  | .severalWorkspaces => "more than one workspace given"

/-- Arguments are looked at in order, so that help wins over what is wrong after it. -/
def parseFrom (watch : Bool) (workspace : Option Path) : List String → Except UsageError Request
  | [] => .ok (.run watch workspace)
  | argument :: rest =>
    if argument = "-h" ∨ argument = "--help" then .ok .help
    else if argument = "-w" ∨ argument = "--watch" then parseFrom true workspace rest
    else if argument.toList.head? = some '-' then .error (.unknownOption argument)
    else if workspace.isSome then .error .severalWorkspaces
    else parseFrom watch (some ⟨argument⟩) rest

def parse (arguments : List String) : Except UsageError Request := parseFrom false none arguments

/-- All that an invocation depends on: where it is made, the environment, and the configuration. -/
structure Surroundings where
  machine : Execution.Machine
  environment : Environment
  config : ConfigFile

namespace Surroundings

def settings (s : Surroundings) : Settings := (Config.ofFile s.config).settings s.environment

def workspace (s : Surroundings) (given : Option Path) : Except FatalError Path :=
  match given with
  | none => .ok (Execution.FileTree.pathOf s.machine.directory)
  | some path =>
    match s.machine.files.resolve s.machine.directory path with
    | .ok (names, _) => .ok (Execution.FileTree.pathOf names)
    | .error e => .error ⟨"workspace " ++ path.text ++ " does not exist", some e.message⟩

end Surroundings

structure Transcript where
  console : Console
  exitCode : Nat
  deriving DecidableEq, Repr

def fail (e : FatalError) : Transcript := ⟨⟨"", e.text⟩, 1⟩

def listing (store : Store) : String :=
  .join (store.toList.flatMap fun (file, ds) => ds.map fun d => d.render file ++ "\n")

def exitCode : Outcome → Nat
  | .succeeded summary => if summary.isClean then 0 else 1
  | _ => 2

def oneShot (settings : Settings) (m : Execution.Machine) (root : Path) : Option Transcript :=
  let (_, out) := (Publisher.new settings).run m ⟨.command, root, none⟩
  out.reports.head?.map fun report =>
    let notice := match report.line? with
      | some line => line ++ "\n"
      | none => ""
    ⟨⟨listing (Store.empty.applyAll out.edits), notice⟩, exitCode report.outcome⟩

/-- What an invocation comes to: a program that ends, one that never does, or a watch session with
what it has written so far. -/
inductive Result where
  | ended (t : Transcript)
  | endless
  | watching (session : Watch.Session) (console : Console)

def startWatch (settings : Settings) (m : Execution.Machine) (root : Path) : Result :=
  match Watch.Session.ofSettings settings root with
  | .error e => .ended (fail ⟨"invalid exclude pattern", some e.message⟩)
  | .ok session =>
    let (session, console) := session.start m
    .watching session console

def start (s : Surroundings) (arguments : List String) : Result :=
  match parse arguments with
  | .error e => .ended (fail ⟨e.message, none⟩)
  | .ok .help => .ended ⟨⟨usage, ""⟩, 0⟩
  | .ok (.run watch given) =>
    match s.workspace given with
    | .error e => .ended (fail e)
    | .ok root =>
      if watch then startWatch s.settings s.machine root
      else
        match oneShot s.settings s.machine root with
        | some t => .ended t
        | none => .endless

end CommandLine

end BuildWatch
