namespace BuildWatch.Decimal

/-- A number in decimal digits, without zeros at the end: `digits` with a point after the first of
them, times ten to the `exponent`. -/
structure Scientific where
  digits : List Char
  exponent : Int
  deriving DecidableEq, Repr

def leadingExponent (num den : Nat) : Int :=
  if den ≤ num then ((Nat.toDigits 10 (num / den)).length : Int) - 1
  else
    match (List.range 400).find? fun t => den ≤ num * Nat.pow 10 t with
    | some t => -(t : Int)
    | none => 0

def trimZeros (n : Nat) : List Char :=
  ((Nat.toDigits 10 n).reverse.dropWhile (· = '0')).reverse

/-- Of the two multiples of `den` next to `num`, the nearer one that lies between `low` and `high`,
the even one if both are as near. The ends count if `closed`. -/
def neighbour? (num den low high : Nat) (closed : Bool) : Option Nat :=
  let inside (d : Nat) : Bool :=
    if closed then low ≤ d * den && d * den ≤ high else low < d * den && d * den < high
  let d := num / den
  match inside d, inside (d + 1) with
  | true, true =>
    let twice := 2 * (num - d * den)
    some (if twice < den ∨ (twice = den ∧ d % 2 = 0) then d else d + 1)
  | true, false => some d
  | false, true => some (d + 1)
  | false, false => none

/-- The shortest decimal that is nearer to `m * 2 ^ q` than to any other double, where `m` has at
most 53 bits and is not zero; of several, the nearest. -/
def shortest (m : Nat) (q : Int) : Scientific :=
  let scale := Nat.pow 2 (q - 2).toNat
  let den := Nat.pow 2 (2 - q).toNat
  let low := (4 * m - if m = Nat.pow 2 52 ∧ q > -1074 then 1 else 2) * scale
  let num := 4 * m * scale
  let high := (4 * m + 2) * scale
  let first := leadingExponent num den
  let attempt (n : Nat) : Option Scientific :=
    let unit := first - n
    let up := Nat.pow 10 (-unit).toNat
    let down := Nat.pow 10 unit.toNat
    let found := neighbour? (num * up) (den * down) (low * up) (high * up) (m % 2 = 0)
    found.map fun d => ⟨trimZeros d, unit + (Nat.toDigits 10 d).length - 1⟩
  ((List.range 17).findSome? attempt).getD ⟨trimZeros m, q⟩

def decode (x : Float) : Nat × Int :=
  let bits := x.toBits.toNat
  let fraction := bits % Nat.pow 2 52
  match bits / Nat.pow 2 52 % Nat.pow 2 11 with
  | 0 => (fraction, -1074)
  | e + 1 => (Nat.pow 2 52 + fraction, (e : Int) - 1074)

/-- Positional from `1e-5` up to `1e16`, with a digit on both sides of the point. -/
def Scientific.text (s : Scientific) : List Char :=
  let n := s.digits.length
  if -5 ≤ s.exponent ∧ s.exponent < 0 then
    ['0', '.'] ++ List.replicate (-s.exponent - 1).toNat '0' ++ s.digits
  else if 0 ≤ s.exponent ∧ s.exponent < 16 then
    let whole := s.exponent.toNat + 1
    if n ≤ whole then s.digits ++ List.replicate (whole - n) '0' ++ ['.', '0']
    else s.digits.take whole ++ ['.'] ++ s.digits.drop whole
  else
    let mantissa := match s.digits with
      | [] => []
      | [d] => [d]
      | d :: ds => d :: '.' :: ds
    mantissa ++ (if s.exponent < 0 then ['e', '-'] else ['e', '+']) ++
      Nat.toDigits 10 s.exponent.natAbs

def text (x : Float) : String :=
  let (m, q) := decode x
  let sign := if x.toBits.toNat / Nat.pow 2 63 = 1 then ['-'] else []
  .ofList (sign ++ if m = 0 then ['0', '.', '0'] else (shortest m q).text)

end BuildWatch.Decimal
