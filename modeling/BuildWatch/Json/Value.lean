import BuildWatch.Decimal.Shortest

namespace BuildWatch.Json

/-- A JSON value. Whole numbers that fit 64 bits are kept apart from all others, and an object keeps
its members as they are written. -/
inductive Value where
  | null
  | bool (b : Bool)
  | int (n : Int)
  | float (x : Float)
  | string (s : String)
  | array (items : List Value)
  | object (members : List (String × Value))

namespace Value

/-- The value under a name. Of members with the same name the last one counts. -/
def member? (members : List (String × Value)) (name : String) : Option Value :=
  (members.reverse.find? fun m => m.1 = name).map (·.2)

def names (members : List (String × Value)) : List String := (members.map (·.1)).eraseDups

def kind : Value → String
  | .null => "null"
  | .bool _ => "a boolean"
  | .int _ => "a number"
  | .float _ => "a number"
  | .string _ => "a string"
  | .array _ => "an array"
  | .object _ => "an object"

end Value

end BuildWatch.Json
