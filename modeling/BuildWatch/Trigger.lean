import BuildWatch.Glob
import BuildWatch.Path
import BuildWatch.Settings

namespace BuildWatch

inductive Trigger.Kind where
  | saved
  | opened
  | command
  deriving DecidableEq, Repr

structure Trigger where
  kind : Trigger.Kind
  root : Path
  document : Option Path
  deriving Repr

structure Policy where
  runOnSave : Bool
  runOnOpen : Bool
  exclude : List Glob

namespace Policy

def ofSettings (s : Settings) : Except GlobError Policy :=
  (Glob.parseAll s.exclude).map fun globs => ⟨s.runOnSave, s.runOnOpen, globs⟩

def isMatch (p : Policy) (text : String) : Bool :=
  p.exclude.any fun g => g.matches? (Utf8.encodeString text)

/-- A document is excluded by its path as it is written, or by its file name. -/
def excludes (p : Policy) (document : Path) : Bool :=
  p.isMatch document.text || (document.fileName?.map p.isMatch).getD false

/-- Commands always pass. Other triggers have to be switched on and not be excluded. -/
def admits (p : Policy) (t : Trigger) : Bool :=
  match t.kind with
  | .command => true
  | .saved => p.runOnSave && !(t.document.map p.excludes).getD false
  | .opened => p.runOnOpen && !(t.document.map p.excludes).getD false

end Policy

end BuildWatch
