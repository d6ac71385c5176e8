namespace BuildWatch

/-- A place in a document. Lines and columns count from zero. -/
structure Position where
  line : UInt32
  column : UInt32
  deriving DecidableEq, Repr

namespace Position

instance : Ord Position := ⟨compareLex (compareOn line) (compareOn column)⟩

instance : LE Position := leOfOrd

instance : LT Position := ltOfOrd

def documentEnd : Position := ⟨0xffffffff, 0xffffffff⟩

def isDocumentEnd (p : Position) : Bool := p = documentEnd

end Position

structure Range where
  start : Position
  stop : Position
  deriving DecidableEq, Repr

namespace Range

def point (p : Position) : Range := ⟨p, p⟩

def toDocumentEnd (start : Position) : Range := ⟨start, .documentEnd⟩

def isEmpty (r : Range) : Bool := r.start = r.stop

end Range

end BuildWatch
