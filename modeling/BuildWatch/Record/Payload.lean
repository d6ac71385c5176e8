import BuildWatch.Json.Reader
import BuildWatch.Json.Shape
import BuildWatch.Record

namespace BuildWatch

open Json

inductive PayloadError where
  | json (fault : Fault)
  | notArray (kind : String)
  | record (mismatch : Mismatch)

def PayloadError.message : PayloadError → String
  | .json fault => "output is not valid JSON: " ++ fault.message
  | .notArray kind => "expected a JSON array of error records, found " ++ kind
  | .record mismatch => "malformed error record: " ++ mismatch.message

namespace Record

def required {α : Type} (name : String) : Option α → Shaped α
  | some a => .ok a
  | none => .error (.missing name)

/-- The members are looked at in the order of their names, and missing ones are noticed then. -/
def ofMembers (members : List (String × Value)) : Shaped Record := do
  let column ← Value.field? members "column" Value.toInt64
  let details ← Value.field? members "details" Value.toTexts
  let extras ← Value.field? members "extras" Value.toText
  let file ← Value.field? members "file" Value.toText
  let line ← Value.field? members "line" Value.toInt64
  let file ← required "file" file
  let line ← required "line" line
  let column ← required "column" column
  return ⟨file, line, column, extras.getD "", details.getD []⟩

def takeField {α : Type} (index : Nat) (read : Value → Shaped α) :
    List Value → Shaped (α × List Value)
  | [] => .error (.tooShort index .record 5)
  | v :: rest => (read v).map (·, rest)

def ofItems (items : List Value) : Shaped Record := do
  let (file, rest) ← takeField 0 Value.toText items
  let (line, rest) ← takeField 1 Value.toInt64 rest
  let (column, rest) ← takeField 2 Value.toInt64 rest
  let (extras, rest) ← Value.takeFieldOr "" Value.toText rest
  let (details, rest) ← Value.takeFieldOr [] Value.toTexts rest
  if rest.isEmpty then return ⟨file, line, column, extras, details⟩
  else throw (.tooLong items.length)

def ofValue : Value → Shaped Record
  | .object members => ofMembers members
  | .array items => ofItems items
  | v => .error (.kind v .record)

def parseAll (payload : Bytes) : Except PayloadError (List Record) :=
  match Json.parse payload with
  | .error fault => .error (.json fault)
  | .ok (.array items) => (items.mapM ofValue).mapError .record
  | .ok v => .error (.notArray v.kind)

end Record

end BuildWatch
