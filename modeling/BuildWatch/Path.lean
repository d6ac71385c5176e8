namespace BuildWatch

inductive Component where
  | root
  | current
  | parent
  | normal (name : String)
  deriving DecidableEq, Repr

namespace Component

def rank : Component → Nat
  | .root => 0
  | .current => 1
  | .parent => 2
  | .normal _ => 3

def name : Component → String
  | .normal name => name
  | _ => ""

def text : Component → String
  | .root => "/"
  | .current => "."
  | .parent => ".."
  | .normal name => name

def order : Component → Component → Ordering := compareLex (compareOn rank) (compareOn name)

instance : Ord Component := ⟨order⟩

instance : Std.TransOrd Component :=
  inferInstanceAs (Std.TransCmp (compareLex (compareOn rank) (compareOn name)))

theorem eq_of_order {a b : Component} (h : order a b = .eq) : a = b := by
  obtain ⟨h1, h2⟩ := compareLex_eq_eq.1 h
  have h1 : a.rank = b.rank := Std.LawfulEqOrd.eq_of_compare h1
  have h2 : a.name = b.name := Std.LawfulEqOrd.eq_of_compare h2
  cases a <;> cases b <;> simp_all [rank, name]

instance : Std.LawfulEqOrd Component where
  compare_self := Std.ReflCmp.compare_self
  eq_of_compare := eq_of_order

end Component

/-- A path keeps the text it was written with. What it denotes is its list of components. -/
structure Path where
  text : String
  deriving Repr

namespace Path

def segments : List Char → List (List Char)
  | [] => [[]]
  | c :: s =>
    if c = '/' then [] :: segments s
    else match segments s with
      | [] => [[c]]
      | piece :: pieces => (c :: piece) :: pieces

def step? : List Char → Option Component
  | [] => none
  | ['.'] => none
  | ['.', '.'] => some .parent
  | name => some (.normal (.ofList name))

def componentsOf (s : List Char) : List Component :=
  let steps := (segments s).filterMap step?
  match s with
  | '/' :: _ => .root :: steps
  | ['.'] => .current :: steps
  | '.' :: '/' :: _ => .current :: steps
  | _ => steps

/-- Empty pieces vanish and so does `.`, except at the front of a relative path. -/
def components (p : Path) : List Component := componentsOf p.text.toList

def same (p q : Path) : Bool := p.components = q.components

instance : Ord Path := ⟨compareOn components⟩

instance : Std.TransOrd Path := inferInstanceAs (Std.TransCmp (compareOn components))

def isAbsolute (p : Path) : Bool := p.components.head? = some .root

def startsWith (p base : Path) : Bool := base.components.isPrefixOf p.components

def fileName? (p : Path) : Option String :=
  match p.components.getLast? with
  | some (.normal name) => some name
  | _ => none

/-- A path that is not absolute without the pieces that vanish, the one at the front included. -/
def tidied (p : Path) : Path :=
  if p.isAbsolute then p
  else ⟨"/".intercalate ((p.components.filter (· ≠ .current)).map Component.text)⟩

/-- An absolute path replaces what it is joined to. -/
def join (p q : Path) : Path :=
  if q.text.toList.head? = some '/' then q
  else if p.text.isEmpty || p.text.toList.getLast? = some '/' then ⟨p.text ++ q.text⟩
  else ⟨p.text ++ "/" ++ q.text⟩

/-- The components in reverse, on top of those in `stack`: each `..` takes away whatever is last,
the root included. -/
def resolveOnto (stack : List Component) : List Component → List Component
  | [] => stack
  | .parent :: cs => resolveOnto stack.tail cs
  | .current :: cs => resolveOnto stack cs
  | c :: cs => resolveOnto (c :: stack) cs

def resolved (p : Path) : List Component := (resolveOnto [] p.components).reverse

def isUnder (p base : Path) : Bool := base.resolved.isPrefixOf p.resolved

end Path

end BuildWatch
