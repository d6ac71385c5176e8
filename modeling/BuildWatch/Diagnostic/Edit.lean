import BuildWatch.Diagnostic

namespace BuildWatch

inductive Edit where
  | set (file : Path) (diagnostics : List Diagnostic)
  | erase (file : Path)
  | clear
  deriving Repr

namespace Edit

/-- The lines that tell of an edit. Setting a file to nothing reads like clearing it. -/
def announce : Edit → List String
  | .set file [] => [file.text ++ ": cleared"]
  | .set file diagnostics => diagnostics.map (·.render file)
  | .erase file => [file.text ++ ": cleared"]
  | .clear => ["all diagnostics cleared"]

def print (e : Edit) : String := .join (e.announce.map (· ++ "\n"))

end Edit

end BuildWatch
