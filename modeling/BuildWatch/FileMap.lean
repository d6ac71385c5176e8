import BuildWatch.Path

namespace BuildWatch

/-- Values by file, in path order. A file is one key however its path is spelled, and the spelling
that came first stays for as long as the file is there. -/
structure FileMap (α : Type) where
  entries : List (Path × α)
  deriving Repr

namespace FileMap

variable {α : Type}

def empty : FileMap α := ⟨[]⟩

instance : EmptyCollection (FileMap α) := ⟨empty⟩

instance : Inhabited (FileMap α) := ⟨empty⟩

def find? (m : FileMap α) (p : Path) : Option (Path × α) := m.entries.find? fun e => e.1.same p

def get? (m : FileMap α) (p : Path) : Option α := (m.find? p).map (·.2)

def contains (m : FileMap α) (p : Path) : Bool := m.entries.any fun e => e.1.same p

def alterEntries (p : Path) (f : Option α → α) : List (Path × α) → List (Path × α)
  | [] => [(p, f none)]
  | (q, a) :: es =>
    match compare p q with
    | .lt => (p, f none) :: (q, a) :: es
    | .eq => (q, f (some a)) :: es
    | .gt => (q, a) :: alterEntries p f es

def alter (m : FileMap α) (p : Path) (f : Option α → α) : FileMap α := ⟨alterEntries p f m.entries⟩

def insert (m : FileMap α) (p : Path) (a : α) : FileMap α := m.alter p fun _ => a

def erase (m : FileMap α) (p : Path) : FileMap α := ⟨m.entries.filter fun e => !e.1.same p⟩

def filter (m : FileMap α) (keep : Path → Bool) : FileMap α :=
  ⟨m.entries.filter fun e => keep e.1⟩

def keys (m : FileMap α) : List Path := m.entries.map (·.1)

def values (m : FileMap α) : List α := m.entries.map (·.2)

def size (m : FileMap α) : Nat := m.entries.length

def isEmpty (m : FileMap α) : Bool := m.entries.isEmpty

end FileMap

end BuildWatch
