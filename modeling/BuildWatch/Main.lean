import BuildWatch.CommandLine

namespace BuildWatch.Outside

open Execution

def readBytes? (path : Path) : IO (Option Bytes) := do
  try
    let bytes ← IO.FS.readBinFile path.text
    return some bytes.toList
  catch _ => return none

def environment : IO Environment := do
  let bytes := (← readBytes? ⟨"/proc/self/environ"⟩).getD []
  let entries := (String.ofList (Utf8.decodeLossy bytes)).splitOn "\x00"
  return ⟨entries.map fun entry =>
    match entry.splitOn "=" with
    | name :: value => (name, "=".intercalate value)
    | [] => (entry, "")⟩

def place (base : List String) (path : Path) : List String :=
  ((FileTree.pathOf base).join path).resolved.filterMap fun
    | .normal name => some name
    | _ => none

/-- What is at a place. No process is started here: a build tool is played by a file that holds its
output, and so every file that can be read counts as a program. -/
def entryAt? (names : List String) : IO (Option Entry) := do
  let path := FileTree.pathOf names
  try
    let _ ← IO.FS.realPath path.text
    return some (if (← readBytes? path).isSome then .program else .directory)
  catch _ => return none

def treeOf (places : List (List String)) : IO FileTree := do
  let prefixes := places.flatMap fun names => (List.range (names.length + 1)).map names.take
  let entries ← prefixes.eraseDups.filterMapM fun names => do
    return (← entryAt? names).map (names, ·)
  return ⟨entries⟩

/-- The machine as it is at this moment, as far as the arguments and the name of the tool reach. -/
def machine (e : Environment) (arguments : List String) (tool : Option String) : IO Machine := do
  let directory := place [] ⟨(← IO.currentDir).toString⟩
  let searchPath := (((e.get? "PATH").getD "").splitOn ":").map fun path => place directory ⟨path⟩
  let tools := match tool with
    | some name => (searchPath ++ [directory]).map fun base => place base ⟨name⟩
    | none => []
  let files ← treeOf (directory :: tools ++ arguments.map fun path => place directory ⟨path⟩)
  let output ← tools.findSomeM? fun names => readBytes? (FileTree.pathOf names)
  return ⟨files, searchPath, directory, fun _ => ⟨output.getD [], [], .exits (.exited 0)⟩⟩

def configFile (e : Environment) : IO ConfigFile := do
  let path := Path.join ⟨(e.get? "HOME").getD "/"⟩ ⟨".stackrunner/config.toml"⟩
  return match ← readBytes? path with
    | some bytes => .content bytes
    | none => .absent

def write (console : Console) : IO Unit := do
  (← IO.getStdout).putStr console.stdout
  (← IO.getStderr).putStr console.stderr
  (← IO.getStdout).flush

/-- Take lines until the session ends. The machine is looked at anew for each of them. -/
partial def listen (now : IO Machine) (session : Watch.Session) : IO Unit := do
  let (session, console) := session.await
  write console
  let line ← (← IO.getStdin).getLine
  let m ← now
  if line.isEmpty then
    write (session.finish m).2
  else
    let (session, console) := session.feed m line
    write console
    if session.listening then listen now session

end BuildWatch.Outside

open BuildWatch in
def main (arguments : List String) : IO UInt32 := do
  let environment ← Outside.environment
  let config ← Outside.configFile environment
  let tool := ((Config.ofFile config).settings environment).tool?
  let now := Outside.machine environment arguments tool
  match CommandLine.start ⟨← now, environment, config⟩ arguments with
  | .ended t =>
    Outside.write t.console
    return .ofNat t.exitCode
  | .endless => return 2
  | .watching session console =>
    Outside.write console
    Outside.listen now session
    return 0
