import BuildWatch.Glob.Expression
import BuildWatch.Glob.Form

namespace BuildWatch

structure Glob where
  tokens : List Glob.Token

/-- Why patterns cannot be used: one cannot be read, or is nested too deep. One that ends in an
extension is known by its expression then, and any other by its place among those of no special
form. -/
inductive GlobError where
  | malformed (pattern : String) (defect : Glob.Defect)
  | nestedSuffixed (expression : String)
  | nested (index : Nat)
  deriving DecidableEq, Repr

def GlobError.message : GlobError → String
  | .malformed pattern defect => "error parsing glob '" ++ pattern ++ "': " ++ defect.message
  | .nestedSuffixed expression =>
    "error parsing glob '" ++ expression ++ "': error parsing pattern 0"
  | .nested index => "error parsing pattern " ++ toString index

namespace Glob

def ofTokens : List Token → Glob
  | [.leadingDirs] => ⟨[.many]⟩
  | ts => ⟨ts⟩

def parse (pattern : String) : Except GlobError Glob :=
  match tokensOf pattern with
  | .ok ts => .ok (ofTokens ts)
  | .error d => .error (.malformed pattern d)

def form (g : Glob) : Form := .ofTokens g.tokens

/-- Patterns that end in an extension are checked before those of no special form. The others need
no check. -/
def nestingError? (globs : List Glob) : Option GlobError :=
  match globs.find? fun g => g.form = .suffixed && tooDeep g.tokens with
  | some g => some (.nestedSuffixed (expression g.tokens))
  | none =>
    ((globs.filter fun g => g.form = .general).findIdx? fun g => tooDeep g.tokens).map .nested

def parseAll (patterns : List String) : Except GlobError (List Glob) := do
  let globs ← patterns.mapM parse
  match nestingError? globs with
  | some e => throw e
  | none => return globs

def endsInParent (bs : Bytes) : Bool :=
  (bs.reverse.takeWhile fun b => b ≠ 0x2f) = [0x2e, 0x2e]

def matches? (g : Glob) (bs : Bytes) : Bool :=
  !(g.form.needsName && endsInParent bs) && matchesTokens g.tokens bs

end Glob

end BuildWatch
