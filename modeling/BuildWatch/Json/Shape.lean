import BuildWatch.Json.Value
import BuildWatch.Text.Quoted

namespace BuildWatch.Json

inductive Expected where
  | boolean
  | string
  | sequence
  | signed
  | unsigned
  | record
  | settings
  | variant
  | unit
  deriving DecidableEq, Repr

def Expected.text : Expected → String
  | .boolean => "a boolean"
  | .string => "a string"
  | .sequence => "a sequence"
  | .signed => "i64"
  | .unsigned => "u64"
  | .record => "struct ErrorRecord"
  | .settings => "struct RunnerConfig"
  | .variant => "string or map"
  | .unit => "unit"

def Value.text : Value → String
  | .null => "null"
  | .bool b => "boolean `" ++ toString b ++ "`"
  | .int n => "integer `" ++ toString n ++ "`"
  | .float x => "floating point `" ++ Decimal.text x ++ "`"
  | .string s => "string " ++ Text.quoted s
  | .array _ => "sequence"
  | .object _ => "map"

inductive Mismatch where
  | kind (found : Value) (expected : Expected)
  | outOfRange (found : Int) (expected : Expected)
  | severalKeys
  | unknownVariant (name : String) (known : List String)
  | missing (field : String)
  | tooShort (length : Nat) (expected : Expected) (fields : Nat)
  | tooLong (length : Nat)

def Mismatch.message : Mismatch → String
  | .kind found expected => "invalid type: " ++ found.text ++ ", expected " ++ expected.text
  | .outOfRange found expected =>
    "invalid value: " ++ (Value.int found).text ++ ", expected " ++ expected.text
  | .severalKeys => "invalid value: map, expected map with a single key"
  | .unknownVariant name known =>
    "unknown variant `" ++ name ++ "`, expected one of " ++
      ", ".intercalate (known.map fun k => "`" ++ k ++ "`")
  | .missing field => "missing field `" ++ field ++ "`"
  | .tooShort length expected fields =>
    "invalid length " ++ toString length ++ ", expected " ++ expected.text ++ " with " ++
      toString fields ++ " elements"
  | .tooLong length => "invalid length " ++ toString length ++ ", expected fewer elements in array"

abbrev Shaped := Except Mismatch

namespace Value

def toBool : Value → Shaped Bool
  | .bool b => .ok b
  | v => .error (.kind v .boolean)

def toText : Value → Shaped String
  | .string s => .ok s
  | v => .error (.kind v .string)

def toTexts : Value → Shaped (List String)
  | .array items => items.mapM toText
  | v => .error (.kind v .sequence)

def toInt64 : Value → Shaped Int64
  | .int n => if n ≤ Int64.maxValue.toInt then .ok (.ofInt n) else .error (.outOfRange n .signed)
  | v => .error (.kind v .signed)

def toUInt64 : Value → Shaped UInt64
  | .int n => if 0 ≤ n then .ok (.ofNat n.toNat) else .error (.outOfRange n .unsigned)
  | v => .error (.kind v .unsigned)

def toOption {α : Type} (read : Value → Shaped α) : Value → Shaped (Option α)
  | .null => .ok none
  | v => (read v).map some

def field? {α : Type} (members : List (String × Value)) (name : String)
    (read : Value → Shaped α) : Shaped (Option α) :=
  match member? members name with
  | some v => (read v).map some
  | none => .ok none

def takeFieldOr {α : Type} (default : α) (read : Value → Shaped α) :
    List Value → Shaped (α × List Value)
  | [] => .ok (default, [])
  | v :: rest => (read v).map (·, rest)

end Value

end BuildWatch.Json
