import BuildWatch.Glob.Matching

namespace BuildWatch.Glob

def metaCharacters : List Char := "\\.+*?()|[]\x7b\x7d^$#&-~".toList

def byteExpression (b : UInt8) : String :=
  if b < 0x80 then
    let c := Char.ofNat b.toNat
    if metaCharacters.contains c then .ofList ['\\', c] else .ofList [c]
  else .ofList ('\\' :: 'x' :: Nat.toDigits 16 b.toNat)

def charExpression (c : Char) : String := .join ((String.utf8EncodeChar c).map byteExpression)

def intervalExpression (low high : Char) : String :=
  if low = high then charExpression low else charExpression low ++ "-" ++ charExpression high

def classExpression (s : CharSet) : String :=
  "[" ++ (if s.negated then "^" else "") ++
    .join (s.intervals.map fun (low, high) => intervalExpression low high) ++ "]"

mutual

def Token.expression : Token → String
  | .literal c => charExpression c
  | .any => "."
  | .many => ".*"
  | .leadingDirs => "(?:/?|.*/)"
  | .trailingDirs => "/.*"
  | .innerDirs => "(?:/|/.*/)"
  | .cls set => classExpression set
  | .alternatives branches =>
    match branchExpressions branches with
    | [] => ""
    | found => "(?:" ++ "|".intercalate found ++ ")"

def expressionOf : List Token → String
  | [] => ""
  | t :: ts => t.expression ++ expressionOf ts

def branchExpressions : List (List Token) → List String
  | [] => []
  | branch :: branches =>
    let others := branchExpressions branches
    if branchVoid branch then others else expressionOf branch :: others

end

def expression (ts : List Token) : String := "(?-u)^" ++ expressionOf ts ++ "$"

/-- The size of an expression: how many items stand side by side, and how deep the deepest is
nested. -/
structure Nesting where
  items : Nat
  depth : Nat
  deriving DecidableEq, Repr

namespace Nesting

def append (a b : Nesting) : Nesting := ⟨a.items + b.items, max a.depth b.depth⟩

def level (n : Nesting) : Nat := if 1 < n.items then n.depth + 1 else n.depth

def ofBranches : List Nesting → Nesting
  | [] => ⟨0, 0⟩
  | [branch] => ⟨1, branch.level + 1⟩
  | branches => ⟨1, branches.foldl (fun depth branch => max depth branch.level) 0 + 2⟩

end Nesting

mutual

def Token.nesting : Token → Nesting
  | .literal c => ⟨(String.utf8EncodeChar c).length, 0⟩
  | .any => ⟨1, 0⟩
  | .many => ⟨1, 1⟩
  | .leadingDirs => ⟨1, 4⟩
  | .trailingDirs => ⟨2, 1⟩
  | .innerDirs => ⟨1, 4⟩
  | .cls set => ⟨1, if 1 < (ByteSet.ofCharSet set).intervals.length then 2 else 1⟩
  | .alternatives branches => .ofBranches (branchNestings branches)

def nestingOf : List Token → Nesting
  | [] => ⟨0, 0⟩
  | t :: ts => t.nesting.append (nestingOf ts)

def branchNestings : List (List Token) → List Nesting
  | [] => []
  | branch :: branches =>
    let others := branchNestings branches
    if branchVoid branch then others else nestingOf branch :: others

end

def maxNesting : Nat := 250

def tooDeep (ts : List Token) : Bool := maxNesting < (nestingOf ts).depth + 1

end BuildWatch.Glob
