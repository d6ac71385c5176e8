import BuildWatch.Json.Shape
import BuildWatch.Settings

namespace BuildWatch.Settings

open Json

/-- What differs between the formats that settings are written in: what may stand beside the name of
a scope in a table. -/
structure Dialect where
  acceptsUnit : Value → Shaped Unit

def jsonUnit : Value → Shaped Unit
  | .null => .ok ()
  | v => .error (.kind v .unit)

def jsonDialect : Dialect := ⟨jsonUnit⟩

def scopeOfName (s : String) : Shaped Scope :=
  match Scope.ofName? s with
  | some scope => .ok scope
  | none => .error (.unknownVariant s (Scope.known.map Scope.name))

/-- A scope is its name, or a table with that name as its only key. -/
def scopeOf (d : Dialect) : Value → Shaped Scope
  | .string s => scopeOfName s
  | .object members =>
    match Value.names members with
    | [name] => do
      let scope ← scopeOfName name
      d.acceptsUnit ((Value.member? members name).getD .null)
      return scope
    | _ => .error .severalKeys
  | v => .error (.kind v .variant)

/-- Members are looked at in the order of their names. -/
def ofMembers (d : Dialect) (members : List (String × Value)) : Shaped Settings := do
  let exclude ← Value.field? members "exclude" Value.toTexts
  let extensions ← Value.field? members "primary_extensions" Value.toTexts
  let runOnOpen ← Value.field? members "run_on_load" Value.toBool
  let runOnSave ← Value.field? members "run_on_save" Value.toBool
  let scope ← Value.field? members "scope" (scopeOf d)
  let toolName ← Value.field? members "server_binary" (Value.toOption Value.toText)
  let limit ← Value.field? members "timeout_ms" (Value.toOption Value.toUInt64)
  let base : Settings := {}
  return { toolName := toolName.getD base.toolName
           runOnSave := runOnSave.getD base.runOnSave
           runOnOpen := runOnOpen.getD base.runOnOpen
           exclude := exclude.getD base.exclude
           primaryExtensions := extensions.getD base.primaryExtensions
           scope := scope.getD base.scope
           limit := limit.getD base.limit }

def fieldCount : Nat := 7

def ofItems (d : Dialect) (items : List Value) : Shaped Settings := do
  let base : Settings := {}
  let (toolName, rest) ← Value.takeFieldOr base.toolName (Value.toOption Value.toText) items
  let (runOnSave, rest) ← Value.takeFieldOr base.runOnSave Value.toBool rest
  let (runOnOpen, rest) ← Value.takeFieldOr base.runOnOpen Value.toBool rest
  let (exclude, rest) ← Value.takeFieldOr base.exclude Value.toTexts rest
  let (primaryExtensions, rest) ← Value.takeFieldOr base.primaryExtensions Value.toTexts rest
  let (scope, rest) ← Value.takeFieldOr base.scope (scopeOf d) rest
  let (limit, rest) ← Value.takeFieldOr base.limit (Value.toOption Value.toUInt64) rest
  if rest.isEmpty then
    return { toolName, runOnSave, runOnOpen, exclude, primaryExtensions, scope, limit }
  else throw (.tooLong items.length)

def ofValue (d : Dialect) : Value → Shaped Settings
  | .object members => ofMembers d members
  | .array items => ofItems d items
  | v => .error (.kind v .settings)

def ofJson : Value → Shaped Settings
  | .null => .ok {}
  | v => ofValue jsonDialect v

end BuildWatch.Settings
