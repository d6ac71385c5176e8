import BuildWatch.Diagnostic
import BuildWatch.FileMap

namespace BuildWatch

structure DiagnosticMap where
  files : FileMap (List Diagnostic)

namespace DiagnosticMap

def empty : DiagnosticMap := ⟨∅⟩

def push (s : DiagnosticMap) (file : Path) (d : Diagnostic) : DiagnosticMap :=
  ⟨s.files.alter file fun ds => ds.getD [] ++ [d]⟩

def get? (s : DiagnosticMap) (file : Path) : Option (List Diagnostic) := s.files.get? file

def contains (s : DiagnosticMap) (file : Path) : Bool := s.files.contains file

/-- Keep the files that `keep` accepts by the spelling they are stored under. -/
def retain (s : DiagnosticMap) (keep : Path → Bool) : DiagnosticMap := ⟨s.files.filter keep⟩

def toList (s : DiagnosticMap) : List (Path × List Diagnostic) := s.files.entries

def paths (s : DiagnosticMap) : List Path := s.files.keys

def size (s : DiagnosticMap) : Nat := s.files.size

def count (s : DiagnosticMap) : Nat := s.files.values.flatten.length

def isEmpty (s : DiagnosticMap) : Bool := s.files.isEmpty

end DiagnosticMap

end BuildWatch
