import BuildWatch.Glob.Token
import BuildWatch.Text.Utf8

namespace BuildWatch.Glob

structure ByteSet where
  negated : Bool
  intervals : List (UInt8 × UInt8)
  deriving DecidableEq, Repr

namespace ByteSet

def contains (s : ByteSet) (b : UInt8) : Bool :=
  (s.intervals.any fun (low, high) => low ≤ b && b ≤ high) != s.negated

def single (b : UInt8) : ByteSet := ⟨false, [(b, b)]⟩

def all : ByteSet := ⟨true, []⟩

/-- A member adds all bytes of its form, and an interval those between the last byte of its low end
and the first byte of its high end. -/
def ofInterval (low high : Char) : List (UInt8 × UInt8) :=
  let lows := String.utf8EncodeChar low
  let highs := String.utf8EncodeChar high
  let singles (bs : Bytes) := bs.map fun b => (b, b)
  if low = high then singles lows
  else
    match lows.getLast?, highs with
    | some a, b :: highs => singles lows.dropLast ++ (a, b) :: singles highs
    | _, _ => []

def ofCharSet (s : CharSet) : ByteSet :=
  ⟨s.negated, s.intervals.flatMap fun (low, high) => ofInterval low high⟩

end ByteSet

mutual

def Token.isVoid : Token → Bool
  | .alternatives branches => allVoid branches
  | _ => false

def branchVoid : List Token → Bool
  | [] => true
  | t :: ts => t.isVoid && branchVoid ts

def allVoid : List (List Token) → Bool
  | [] => true
  | branch :: branches => branchVoid branch && allVoid branches

end

/-- For each place in a text, from its front to its end, whether the rest of a pattern matches what
follows there. -/
abbrev Places := List Bool

namespace Places

def atEnd (bs : Bytes) : Places := List.replicate bs.length false ++ [true]

def either (a b : Places) : Places := List.zipWith (· || ·) a b

def beforeByte (set : ByteSet) (bs : Bytes) (next : Places) : Places :=
  List.zipWith (fun b m => set.contains b && m) bs next.tail ++ [false]

def beforeSlash (bs : Bytes) (next : Places) : Places := beforeByte (.single 0x2f) bs next

def beforeRun (next : Places) : Places :=
  next.foldr (fun m places => (m || places.headD false) :: places) []

def beforeChar (c : Char) (bs : Bytes) (next : Places) : Places :=
  (String.utf8EncodeChar c).foldr (fun b next => beforeByte (.single b) bs next) next

end Places

open Places

mutual

/-- The same for the rest with a token in front of it. Branches that stand for nothing do not count,
unless all of a group's do. -/
def Token.before (bs : Bytes) : Token → Places → Places
  | .literal c, next => beforeChar c bs next
  | .any, next => beforeByte .all bs next
  | .many, next => beforeRun next
  | .leadingDirs, next => either next (beforeRun (beforeSlash bs next))
  | .trailingDirs, next => beforeSlash bs (beforeRun next)
  | .innerDirs, next =>
    let places := beforeSlash bs next
    either places (beforeSlash bs (beforeRun places))
  | .cls set, next => beforeByte (.ofCharSet set) bs next
  | .alternatives branches, next => (beforeAny bs branches next).getD next

def beforeAll (bs : Bytes) : List Token → Places → Places
  | [], next => next
  | t :: ts, next => t.before bs (beforeAll bs ts next)

def beforeAny (bs : Bytes) : List (List Token) → Places → Option Places
  | [], _ => none
  | branch :: branches, next =>
    let others := beforeAny bs branches next
    if branchVoid branch then others
    else
      let places := beforeAll bs branch next
      some ((others.map (either places)).getD places)

end

def matchesTokens (ts : List Token) (bs : Bytes) : Bool :=
  (beforeAll bs ts (atEnd bs)).headD false

end BuildWatch.Glob
