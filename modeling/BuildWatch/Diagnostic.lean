import BuildWatch.Path
import BuildWatch.Position
import BuildWatch.Text.Lines

namespace BuildWatch

structure Diagnostic where
  message : String
  range : Range
  deriving DecidableEq, Repr

namespace Diagnostic

def severity : String := "error"

def source : String := "stackrunner"

/-- The place counts from one here, and further lines of the message are indented. -/
def render (file : Path) (d : Diagnostic) : String :=
  file.text ++ ":" ++ toString (d.range.start.line.toNat + 1) ++ ":" ++
    toString (d.range.start.column.toNat + 1) ++ ": " ++ severity ++ ": [" ++ source ++ "] " ++
    .ofList (Text.indentRest d.message.toList)

end Diagnostic

end BuildWatch
