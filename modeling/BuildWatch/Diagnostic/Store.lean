import BuildWatch.Diagnostic.Edit
import BuildWatch.FileMap

namespace BuildWatch

/-- The diagnostics that are on show, by file. A file without any is not in it. -/
structure Store where
  files : FileMap (List Diagnostic)

namespace Store

def empty : Store := ⟨∅⟩

def set (s : Store) (file : Path) (diagnostics : List Diagnostic) : Store :=
  if diagnostics.isEmpty then ⟨s.files.erase file⟩ else ⟨s.files.insert file diagnostics⟩

def erase (s : Store) (file : Path) : Store := ⟨s.files.erase file⟩

def clear (_ : Store) : Store := empty

def get? (s : Store) (file : Path) : Option (List Diagnostic) := s.files.get? file

def isEmpty (s : Store) : Bool := s.files.isEmpty

def apply (s : Store) : Edit → Store
  | .set file diagnostics => s.set file diagnostics
  | .erase file => s.erase file
  | .clear => s.clear

def applyAll (s : Store) (edits : List Edit) : Store := edits.foldl apply s

def toList (s : Store) : List (Path × List Diagnostic) := s.files.entries

def count (s : Store) : Nat := (s.toList.flatMap (·.2)).length

def status (s : Store) : String :=
  match s.toList.length with
  | 0 => ""
  | 1 => "E:" ++ toString s.count ++ " in 1 file"
  | n => "E:" ++ toString s.count ++ " in " ++ toString n ++ " files"

end Store

end BuildWatch
