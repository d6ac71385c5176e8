import BuildWatch.Expansion
import BuildWatch.Settings.Decoding
import BuildWatch.Failure
import BuildWatch.Toml.Reader

namespace BuildWatch

namespace Toml

/-- A scalar as a value, if it is one. What 64 bits cannot hold is no whole number any more, and a
date is a table with one key, which no setting has. -/
def Scalar.value? : Scalar → Option Json.Value
  | .int n =>
    some (if Int64.minValue.toInt ≤ n ∧ n < UInt64.size then .int n else .float (Float.ofInt n))
  | .float x => some (.float x)
  | .bool b => some (.bool b)
  | .date text => some (.object [("date", .string text)])
  | .invalid => none

mutual

def Node.value? : Node → Option Json.Value
  | .scalar s => s.value?
  | .string text => some (.string text)
  | .list items => (valuesOf items).map .array
  | .tables items => (valuesOf items).map fun values => .array values.reverse
  | .table _ entries => (membersOf entries).map .object

def valuesOf : List Node → Option (List Json.Value)
  | [] => some []
  | node :: nodes => do return (← node.value?) :: (← valuesOf nodes)

def membersOf : List (String × Node) → Option (List (String × Json.Value))
  | [] => some []
  | (name, node) :: entries => do return (name, ← node.value?) :: (← membersOf entries)

end

def Node.take (count : Nat) : Node → Node
  | .list items => .list (items.take count)
  | node => node

end Toml

namespace Settings

open Json

def tomlUnit : Value → Shaped Unit
  | .array [] => .ok ()
  | .object [] => .ok ()
  | v => .error (.kind v .unit)

def tomlDialect : Dialect := ⟨tomlUnit⟩

end Settings

inductive ConfigFile where
  | absent
  | directory
  | content (bytes : Bytes)

inductive ConfigError where
  | unreadable (path : String) (cause : SystemError)
  | malformed (path : String)
  deriving DecidableEq, Repr

def ConfigError.message : ConfigError → String
  | .unreadable path cause => "failed to read config at " ++ path ++ ": " ++ cause.message
  | .malformed path => "failed to parse config at " ++ path

structure Config where
  runner : Option Settings := none
  deriving Repr

namespace Config

def sectionName : String := "runner"

/-- Every value of a document is looked at, other sections' too, but not the items of a list of
fields that come after the last field. -/
def ofEntries (entries : Toml.Entries) : Option Config := do
  let seen := entries.map fun (name, node) =>
    (name, if name = sectionName then node.take Settings.fieldCount else node)
  let members ← Toml.membersOf seen
  match Json.Value.member? members sectionName with
  | some value =>
    match Settings.ofValue Settings.tomlDialect value with
    | .ok settings => return ⟨some settings⟩
    | .error _ => none
  | none => return {}

/-- Read a configuration file. Its absence is no error. -/
def load (path : String) : ConfigFile → Except ConfigError (Option Config)
  | .absent => .ok none
  | .directory => .error (.unreadable path (.code 21))
  | .content bytes =>
    match Utf8.decode? bytes with
    | none => .error (.unreadable path (.custom "stream did not contain valid UTF-8"))
    | some text =>
      match (Toml.parse? text).bind ofEntries with
      | some config => .ok (some config)
      | none => .error (.malformed path)

def settings (c : Config) (e : Environment) : Settings := (c.runner.getD {}).resolve e

/-- The configuration of a file, where one that is absent or cannot be used counts as empty. -/
def ofFile (file : ConfigFile) : Config :=
  match load "" file with
  | .ok (some config) => config
  | _ => {}

end Config

end BuildWatch
