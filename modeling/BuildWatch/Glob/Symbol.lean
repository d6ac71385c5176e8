namespace BuildWatch.Glob

inductive Defect where
  | unclosedClass
  | invalidRange (low high : Char)
  | unopenedGroup
  | unclosedGroup
  | danglingEscape
  deriving DecidableEq, Repr

def Defect.message : Defect → String
  | .unclosedClass => "unclosed character class; missing ']'"
  | .invalidRange low high =>
    "invalid range; '" ++ low.toString ++ "' > '" ++ high.toString ++ "'"
  | .unopenedGroup =>
    "unopened alternate group; missing '\x7b' (maybe escape '\x7d' with '[\x7d]'?)"
  | .unclosedGroup =>
    "unclosed alternate group; missing '\x7d' (maybe escape '\x7b' with '[\x7b]'?)"
  | .danglingEscape => "dangling '\\'"

structure CharSet where
  negated : Bool
  intervals : List (Char × Char)
  deriving DecidableEq, Repr

/-- A pattern cut into its signs. A defect is a sign too, and no sign follows it. -/
inductive Symbol where
  | literal (c : Char)
  | escaped (c : Char)
  | question
  | star
  | opening
  | closing
  | comma
  | cls (set : CharSet)
  | defect (d : Defect)
  deriving DecidableEq, Repr

namespace Symbol

/-- Where a reader is inside a pattern: between signs, after a backslash, at the front of a class,
or further inside one, where `pending` tells that a hyphen may make an interval of the last
member. -/
inductive State where
  | plain
  | escape
  | classFront
  | inClass (negated first pending : Bool) (members : List (Char × Char))
  deriving DecidableEq, Repr

def ofChar (c : Char) : Symbol :=
  if c = '?' then .question
  else if c = '*' then .star
  else if c = '\x7b' then .opening
  else if c = '\x7d' then .closing
  else if c = ',' then .comma
  else .literal c

/-- One character of a class, its members last first. A bracket at the front is a member. -/
def classStep (negated first pending : Bool) (members : List (Char × Char)) (c : Char) :
    Except Defect (State ⊕ CharSet) :=
  if c = ']' ∧ !first then
    let members := if pending then ('-', '-') :: members else members
    .ok (.inr ⟨negated, members.reverse⟩)
  else if c = '-' ∧ !first ∧ !pending then
    .ok (.inl (.inClass negated false true members))
  else
    match pending, members with
    | true, (low, _) :: members =>
      if c < low then .error (.invalidRange low c)
      else .ok (.inl (.inClass negated false false ((low, c) :: members)))
    | _, _ => .ok (.inl (.inClass negated false false ((c, c) :: members)))

def scan : State → List Char → List Symbol
  | .plain, [] => []
  | .escape, [] => [.defect .danglingEscape]
  | .classFront, [] => [.defect .unclosedClass]
  | .inClass .., [] => [.defect .unclosedClass]
  | .plain, c :: s =>
    if c = '\\' then scan .escape s
    else if c = '[' then scan .classFront s
    else ofChar c :: scan .plain s
  | .escape, c :: s => .escaped c :: scan .plain s
  | .classFront, c :: s =>
    if c = '!' ∨ c = '^' then scan (.inClass true true false []) s
    else
      match classStep false true false [] c with
      | .error d => [.defect d]
      | .ok (.inl state) => scan state s
      | .ok (.inr set) => .cls set :: scan .plain s
  | .inClass negated first pending members, c :: s =>
    match classStep negated first pending members c with
    | .error d => [.defect d]
    | .ok (.inl state) => scan state s
    | .ok (.inr set) => .cls set :: scan .plain s

end Symbol

end BuildWatch.Glob
