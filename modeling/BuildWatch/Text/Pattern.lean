namespace BuildWatch.Text

/-- Text patterns whose choices are tried in order. Repetition is of single characters. -/
inductive Pattern where
  | empty
  | one (accepts : Char → Bool)
  | seq (p q : Pattern)
  | choice (p q : Pattern)
  | many (accepts : Char → Bool)
  | few (accepts : Char → Bool)

namespace Pattern

variable {α : Type}

/-- Take as many characters as possible, then give them back one by one until `next` succeeds. -/
def takeMany (accepts : Char → Bool) (next : List Char → Option α) : List Char → Option α
  | [] => next []
  | c :: s =>
    if accepts c then
      match takeMany accepts next s with
      | some a => some a
      | none => next (c :: s)
    else next (c :: s)

def takeFew (accepts : Char → Bool) (next : List Char → Option α) : List Char → Option α
  | [] => next []
  | c :: s =>
    match next (c :: s) with
    | some a => some a
    | none => if accepts c then takeFew accepts next s else none

/-- The answer of `next` on what the first match leaves after which it has one. -/
def run : Pattern → (List Char → Option α) → List Char → Option α
  | .empty, next, s => next s
  | .one _, _, [] => none
  | .one accepts, next, c :: s => if accepts c then next s else none
  | .seq p q, next, s => p.run (q.run next) s
  | .choice p q, next, s =>
    match p.run next s with
    | some a => some a
    | none => q.run next s
  | .many accepts, next, s => takeMany accepts next s
  | .few accepts, next, s => takeFew accepts next s

def rest? (p : Pattern) (s : List Char) : Option (List Char) := p.run some s

def char (c : Char) : Pattern := .one (· = c)

def ofList : List Char → Pattern
  | [] => .empty
  | c :: s => .seq (char c) (ofList s)

def opt (p : Pattern) : Pattern := .choice p .empty

def many1 (accepts : Char → Bool) : Pattern := .seq (.one accepts) (.many accepts)

def few1 (accepts : Char → Bool) : Pattern := .seq (.one accepts) (.few accepts)

end Pattern

end BuildWatch.Text
