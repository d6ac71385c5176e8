import BuildWatch.Toml.Text

namespace BuildWatch.Toml

/-- A value that is neither a string nor made of other values. A date or time is known by its text
only. Some texts pass for numbers although no number can be made of them: one too large for its
kind, a base without digits, or letters among the digits of a group. They are faults where the value
is looked at, and nowhere else. -/
inductive Scalar where
  | int (n : Int)
  | float (x : Float)
  | bool (b : Bool)
  | date (text : String)
  | invalid

def digits? (isDigit : Char → Bool) : List Char → Option (List Char)
  | [] => none
  | [c] => if isDigit c then some [c] else none
  | c :: '_' :: s => if isDigit c then (digits? isDigit s).map (c :: ·) else none
  | c :: s => if isDigit c then (digits? isDigit s).map (c :: ·) else none

def valueOf (base : Nat) (ds : List Char) : Nat :=
  ds.foldl (fun n c => n * base + (hexDigit? c).getD 0) 0

def isZero (c : Char) : Bool := c = '0'

/-- Whole numbers are read as long as 128 bits can hold them, which rules out more than 128 digits
after the leading zeros in any base. -/
def whole (base : Nat) (isNegative : Bool) (ds : List Char) : Scalar :=
  let ds := ds.dropWhile isZero
  let n := valueOf base (ds.take 129)
  if isNegative then
    if 128 < ds.length ∨ Nat.pow 2 127 < n then .invalid else .int (-(n : Int))
  else
    if 128 < ds.length ∨ Nat.pow 2 128 ≤ n then .invalid else .int n

def based? (base : Nat) : List Char → Option Scalar
  | [] => some .invalid
  | s =>
    (digits? (fun c => (hexDigit? c).any fun d => decide (d < base)) s).map (whole base false)

def whole? (s : List Char) : Option (List Char) :=
  match digits? Char.isDigit s with
  | some ('0' :: _ :: _) => none
  | ds => ds

def unsigned (s : List Char) : List Char :=
  match s with
  | '+' :: s => s
  | '-' :: s => s
  | s => s

def isNegative (s : List Char) : Bool := s.head? = some '-'

def groupsDigits (previous : Char) : List Char → Bool
  | [] => previous ≠ '_'
  | c :: s =>
    (if c = '_' then (hexDigit? previous).isSome
      else if previous = '_' then (hexDigit? c).isSome
      else true) && groupsDigits c s

/-- Whether a text begins with digits and an underscore, the first digit not being zero, and has no
mark of a fraction or an exponent. Such a text passes for a whole number. -/
def looksGrouped (s : List Char) : Bool :=
  match unsigned s with
  | [] => false
  | c :: s =>
    '1' ≤ c && c ≤ '9' && (s.dropWhile Char.isDigit).head? = some '_' &&
      !s.any (fun c => c = '.' || c = 'e' || c = 'E') && groupsDigits c s

def int? (s : List Char) : Option Scalar :=
  match s with
  | '0' :: 'x' :: ds => based? 16 ds
  | '0' :: 'o' :: ds => based? 8 ds
  | '0' :: 'b' :: ds => based? 2 ds
  | s =>
    match whole? (unsigned s) with
    | some ds => some (whole 10 (isNegative s) ds)
    | none => if looksGrouped s then some .invalid else none

/-- The most digits that can tell to which double a number is nearest. -/
def maxDigits : Nat := 800

/-- The double nearest to the number that digits and a power of ten make, which may be infinite. Of
the digits after the first ones it counts only whether they are all zero. -/
def floatOf (ds : List Char) (e : Int) : Float :=
  let ds := ds.dropWhile isZero
  let rest := ds.drop maxDigits
  let kept := ds.take maxDigits ++ if rest.all isZero then [] else ['1']
  let e := e + (ds.length - kept.length : Int)
  if ds.isEmpty || kept.length + e < -400 then 0.0
  else if 400 < kept.length + e then 1.0 / 0.0
  else Float.ofScientific (valueOf 10 kept) (decide (e < 0)) e.natAbs

/-- A power of ten beyond any double is as good as any other of that kind. -/
def exponent? (s : List Char) : Option Int :=
  (digits? Char.isDigit (unsigned s)).map fun ds =>
    let n : Int := valueOf 10 ((ds.dropWhile isZero).take 12)
    if isNegative s then -n else n

def decimal? (s : List Char) : Option Float :=
  let isMark (c : Char) : Bool := c = 'e' || c = 'E'
  let mantissa := s.takeWhile fun c => !isMark c
  let power := match s.dropWhile fun c => !isMark c with
    | [] => some 0
    | _ :: e => exponent? e
  let front := mantissa.takeWhile (· ≠ '.')
  let hasMark := s.any isMark
  match whole? front, mantissa.dropWhile (· ≠ '.'), power with
  | some ds, [], some e => if hasMark then some (floatOf ds e) else none
  | some ds, _ :: fraction, some e =>
    (digits? Char.isDigit fraction).map fun fs => floatOf (ds ++ fs) (e - fs.length)
  | _, _, _ => none

/-- Only its own name stands for infinity. -/
def float? (s : List Char) : Option Scalar :=
  let signed (x : Float) : Float := if isNegative s then -x else x
  match unsigned s with
  | ['i', 'n', 'f'] => some (.float (signed (1.0 / 0.0)))
  | ['n', 'a', 'n'] => some (.float (signed (0.0 / 0.0)))
  | ds => (decimal? ds).map fun x => if x.isInf then .invalid else .float (signed x)

def fixed? (n : Nat) (s : List Char) : Step Nat :=
  let ds := s.take n
  if ds.length = n ∧ ds.all Char.isDigit then some (valueOf 10 ds, s.drop n) else none

def isLeap (year : Nat) : Bool := year % 4 = 0 && (year % 100 ≠ 0 || year % 400 = 0)

def daysIn (year month : Nat) : Nat :=
  if month = 2 then (if isLeap year then 29 else 28)
  else if month = 4 ∨ month = 6 ∨ month = 9 ∨ month = 11 then 30
  else 31

def expect (c : Char) : List Char → Option (List Char)
  | [] => none
  | d :: s => if d = c then some s else none

def day? (s : List Char) : Option (List Char) := do
  let (year, s) ← fixed? 4 s
  let s ← expect '-' s
  let (month, s) ← fixed? 2 s
  let s ← expect '-' s
  let (day, s) ← fixed? 2 s
  if 1 ≤ month ∧ month ≤ 12 ∧ 1 ≤ day ∧ day ≤ daysIn year month then some s else none

def seconds? (s : List Char) : Option (List Char) := do
  let (second, s) ← fixed? 2 s
  if 60 < second then none
  else
    match s with
    | '.' :: s =>
      if (s.head?.map Char.isDigit).getD false then some (s.dropWhile Char.isDigit) else none
    | s => some s

def time? (s : List Char) : Option (List Char) := do
  let (hour, s) ← fixed? 2 s
  let s ← expect ':' s
  let (minute, s) ← fixed? 2 s
  if 23 < hour ∨ 59 < minute then none
  else
    match s with
    | ':' :: s => seconds? s
    | s => some s

def isOffset : List Char → Bool
  | [] => true
  | ['Z'] => true
  | ['z'] => true
  | c :: s =>
    (c = '+' || c = '-') &&
      ((do
        let (hour, s) ← fixed? 2 s
        let s ← expect ':' s
        let (minute, s) ← fixed? 2 s
        return decide (hour ≤ 23 ∧ minute ≤ 59) && s.isEmpty) : Option Bool).getD false

def isDate (s : List Char) : Bool :=
  match day? s with
  | some [] => true
  | some (c :: s) => (c = 'T' || c = 't' || c = ' ') && ((time? s).map isOffset).getD false
  | none => (time? s).map List.isEmpty = some true

def scalar? (s : List Char) : Option Scalar :=
  if s = "true".toList then some (.bool true)
  else if s = "false".toList then some (.bool false)
  else
    match int? s, float? s with
    | some number, _ => some number
    | none, some number => some number
    | none, none => if isDate s then some (.date (.ofList s)) else none

end BuildWatch.Toml
