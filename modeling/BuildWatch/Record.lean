import BuildWatch.Position

namespace BuildWatch

/-- One problem as the build tool reports it: lines count from one and columns from zero, and either
may be out of range when the tool knows no place. -/
structure Record where
  file : String
  line : Int64
  column : Int64
  extras : String
  details : List String
  deriving DecidableEq, Repr

abbrev SourceTest := String → Bool

namespace SourceTest

/-- Dots in front of an extension do not count, and an extension of dots alone is none. -/
def suffixes (extensions : List String) : List (List Char) :=
  (extensions.map fun e => e.toList.dropWhile (· = '.')).filterMap fun
    | [] => none
    | c :: e => some ('.' :: c :: e)

def ofExtensions (extensions : List String) : SourceTest :=
  fun file => (suffixes extensions).any fun s => s.isSuffixOf file.toList

end SourceTest

namespace Range

def clamp (n : Int) : UInt32 := .ofNat (min n.toNat 0xffffffff)

/-- The range of a problem: its place in a primary source, else all from there to the end. -/
def ofRecord (isPrimary : SourceTest) (r : Record) : Range :=
  let start := ⟨clamp (r.line.toInt - 1), clamp r.column.toInt⟩
  if isPrimary r.file then point start else toDocumentEnd start

end Range

end BuildWatch
