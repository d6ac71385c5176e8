import BuildWatch.Text.Blank

namespace BuildWatch

/-- Which of the reported files are published: all of them, those in the workspace, or only the
document that the run was started for. -/
inductive Scope where
  | all
  | workspace
  | document
  deriving DecidableEq, Repr

namespace Scope

def name : Scope → String
  | .all => "all"
  | .workspace => "workspace"
  | .document => "document"

def known : List Scope := [.all, .workspace, .document]

def ofName? (s : String) : Option Scope := known.find? fun scope => scope.name = s

end Scope

/-- How the build tool is run and what becomes of its output. A run without a time limit, which is
in milliseconds, may go on for ever. -/
structure Settings where
  toolName : Option String := none
  runOnSave : Bool := true
  runOnOpen : Bool := true
  exclude : List String := ["*.yaml", "*.cabal"]
  primaryExtensions : List String := ["hs"]
  scope : Scope := .all
  limit : Option UInt64 := none
  deriving DecidableEq, Repr

namespace Settings

/-- The name of the build tool without blanks around it, unless there is nothing else in it. -/
def tool? (s : Settings) : Option String :=
  match s.toolName with
  | some name => if Text.allBlank name.toList then none else some (Text.trimmed name)
  | none => none

end Settings

end BuildWatch
