import BuildWatch.Path
import BuildWatch.Execution.Behaviour

namespace BuildWatch.Execution

/-- What is found at a place in the file tree: a directory, a program that can be started, one that
the system refuses with a code, or a file that nobody may execute. -/
inductive Entry where
  | directory
  | program
  | refused (code : Nat)
  | plain
  deriving DecidableEq, Repr

structure FileTree where
  entries : List (List String × Entry)
  deriving Repr

namespace FileTree

def entry? (t : FileTree) (names : List String) : Option Entry :=
  if names.isEmpty then some .directory
  else (t.entries.find? fun e => e.1 = names).map (·.2)

def noSuchEntry : SystemError := .code 2

def notDirectory : SystemError := .code 20

def nameTooLong : SystemError := .code 36

def maxName : Nat := 255

/-- Follow the pieces of a path from the place `names`. Only a directory can be passed through, also
by an empty piece or a dot. -/
def walk (t : FileTree) (names : List String) :
    List (List Char) → Except SystemError (List String)
  | [] => .ok names
  | piece :: pieces =>
    match t.entry? names with
    | none => .error noSuchEntry
    | some .directory =>
      match piece with
      | [] => walk t names pieces
      | ['.'] => walk t names pieces
      | ['.', '.'] => walk t names.dropLast pieces
      | name =>
        if maxName < (String.ofList name).utf8ByteSize then .error nameTooLong
        else walk t (names ++ [.ofList name]) pieces
    | some _ => .error notDirectory

def resolve (t : FileTree) (base : List String) (p : Path) :
    Except SystemError (List String × Entry) :=
  let s := p.text.toList
  let start := if s.head? = some '/' then [] else base
  if s.isEmpty then .error noSuchEntry
  else
    match t.walk start (Path.segments s) with
    | .error e => .error e
    | .ok names =>
      match t.entry? names with
      | some entry => .ok (names, entry)
      | none => .error noSuchEntry

def pathOf (names : List String) : Path := ⟨"/" ++ "/".intercalate names⟩

end FileTree

/-- Where build tools are started: a file tree, the directories that are searched for programs, the
working directory, and what the build tool does when it is given its argument. -/
structure Machine where
  files : FileTree
  searchPath : List (List String)
  directory : List String
  tool : Path → Behaviour

namespace Machine

def entryAt (m : Machine) (base : List String) (p : Path) : Option Entry :=
  match m.files.resolve base p with
  | .ok (_, entry) => some entry
  | .error _ => none

def isExecutable : Entry → Bool
  | .program => true
  | .refused _ => true
  | _ => false

/-- The program of a name. One of a single component is looked for in the search path as it is
written, and any other one in the working directory by its components. -/
def program? (m : Machine) (name : Path) : Option Entry :=
  let found := if 1 < name.components.length then [m.entryAt m.directory name.tidied]
    else m.searchPath.map fun base => m.entryAt base name
  (found.filterMap id).find? isExecutable

/-- Why there is no program of a name: a file that is there all the same cannot be executed. -/
def missing (m : Machine) (name : String) : StartError :=
  match m.entryAt m.directory ⟨name⟩ with
  | none => .notFound (some name)
  | some .directory => .notFound (some name)
  | some _ => .launch name .permissionDenied

def start (m : Machine) (name : String) (argument : Path) : Except StartError Behaviour :=
  match m.program? ⟨name⟩ with
  | none => .error (m.missing name)
  | some entry =>
    if argument.text.toList.contains '\x00' then
      .error (.launch name (.custom "nul byte found in provided data"))
    else
      match entry with
      | .program => .ok (m.tool argument)
      | .refused code =>
        .error (if code = 2 then .notFound (some name) else .launch name (.code code))
      | _ => .error (m.missing name)

end Machine

end BuildWatch.Execution
