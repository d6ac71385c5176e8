import BuildWatch.Settings

namespace BuildWatch

structure Environment where
  bindings : List (String × String)
  deriving Repr

namespace Environment

/-- The value of a variable. No name with an equals sign or a NUL in it is ever set. -/
def get? (e : Environment) (name : String) : Option String :=
  if name.toList.any fun c => c = '=' ∨ c = '\x00' then none
  else (e.bindings.find? fun v => v.1 = name).map (·.2)

end Environment

namespace Expansion

def closing? : List Char → Option (List Char × List Char)
  | [] => none
  | c :: s => if c = '\x7d' then some ([], s) else (closing? s).map fun (a, b) => (c :: a, b)

def valueOf (e : Environment) (name : List Char) : List Char :=
  if name.isEmpty then [] else ((e.get? (.ofList name)).map String.toList).getD []

/-- Where a reader is: in plain text, or in a reference that is known to be closed, after as much of
its name as `name` holds reversed. -/
inductive State where
  | plain
  | opened
  | inName (name : List Char)

/-- A reference is replaced by its value, which is not looked at again. One that is not closed stays
as it is, and so does all after it. -/
def expandFrom (e : Environment) : State → List Char → List Char
  | _, [] => []
  | .plain, c :: s =>
    match c, s with
    | '$', '\x7b' :: rest =>
      if (closing? rest).isSome then expandFrom e .opened s else c :: s
    | _, _ => c :: expandFrom e .plain s
  | .opened, _ :: s => expandFrom e (.inName []) s
  | .inName name, c :: s =>
    if c = '\x7d' then valueOf e name.reverse ++ expandFrom e .plain s
    else expandFrom e (.inName (c :: name)) s

def expand (e : Environment) (text : String) : String :=
  .ofList (expandFrom e .plain text.toList)

end Expansion

namespace Settings

def toolVariable : String := "STACKRUNNER_SERVER_BINARY"

/-- The settings in force: references in the name of the tool are expanded, and a variable that is
not blank replaces the name as it is. -/
def resolve (e : Environment) (s : Settings) : Settings :=
  let written := s.toolName.map (Expansion.expand e)
  match e.get? toolVariable with
  | some name => { s with toolName := if Text.allBlank name.toList then written else some name }
  | none => { s with toolName := written }

end Settings

end BuildWatch
