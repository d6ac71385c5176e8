import BuildWatch.Json.Fault
import BuildWatch.Json.Value

namespace BuildWatch.Json

abbrev Step (α : Type) := Except Stop (α × Bytes)

def digit? (b : UInt8) : Option Nat :=
  if 0x30 ≤ b ∧ b ≤ 0x39 then some (b.toNat - 0x30) else none

namespace Number

def maxWord : Nat := UInt64.size - 1

def maxExponent : Nat := 0x7fffffff

def tenTo (k : Nat) : Float := .ofScientific 1 false k

/-- Divide by ten to the `k`, in steps that a double can hold. -/
def scaleDown (x : Float) (k : Nat) : Float :=
  if k ≤ 308 then x / tenTo k
  else if x == 0.0 then x
  else scaleDown (x / tenTo 308) (k - 308)
termination_by k

def scaleUp (x : Float) (k : Nat) : Option Float :=
  if k ≤ 308 then
    let y := x * tenTo k
    if y.isInf then none else some y
  else if x == 0.0 then some x
  else none

/-- The double `significand * 10 ^ exponent`, rounded after each operation. -/
def float? (negative : Bool) (significand : Nat) (exponent : Int) : Option Float :=
  let x := (UInt64.ofNat significand).toFloat
  let scaled :=
    if 0 ≤ exponent then scaleUp x exponent.toNat else some (scaleDown x exponent.natAbs)
  scaled.map fun y => if negative then -y else y

def finish (negative : Bool) (significand : Nat) (exponent : Int) (rest : Bytes) : Step Value :=
  match float? negative significand exponent with
  | some x => .ok (.float x, rest)
  | none => .error ⟨.numberOutOfRange, rest, .here⟩

/-- A whole number. A negative one that 64 bits cannot hold becomes a double, as minus zero does. -/
def whole (negative : Bool) (n : Nat) : Value :=
  if !negative then .int n
  else if n = 0 ∨ 0x8000000000000000 < n then .float (-(UInt64.ofNat n).toFloat)
  else .int (-(n : Int))

def dropDigits (bs : Bytes) : Bytes := bs.dropWhile fun b => (digit? b).isSome

/-- The digits of an exponent after its first one. An exponent beyond all bounds makes a number that
is zero or too large. -/
def exponentDigits (negative : Bool) (significand : Nat) (base : Int) (down : Bool) (e : Nat) :
    Bytes → Step Value
  | [] => finish negative significand (if down then base - e else base + e) []
  | b :: rest =>
    match digit? b with
    | none => finish negative significand (if down then base - e else base + e) (b :: rest)
    | some d =>
      if maxExponent < e * 10 + d then
        if significand ≠ 0 ∧ !down then .error ⟨.numberOutOfRange, rest, .here⟩
        else .ok (.float (if negative then -0.0 else 0.0), dropDigits rest)
      else exponentDigits negative significand base down (e * 10 + d) rest

def exponent (negative : Bool) (significand : Nat) (base : Int) (bs : Bytes) : Step Value :=
  let (down, rest) := match bs with
    | b :: rest =>
      if b = 0x2b then (false, rest) else if b = 0x2d then (true, rest) else (false, bs)
    | [] => (false, [])
  match rest with
  | [] => .error ⟨.endOfValue, [], .here⟩
  | b :: rest =>
    match digit? b with
    | none => .error ⟨.invalidNumber, rest, .here⟩
    | some d => exponentDigits negative significand base down d rest

def isExponentLetter (b : UInt8) : Bool := b = 0x65 || b = 0x45

def afterFraction (negative : Bool) (significand : Nat) (base : Int) (bs : Bytes) : Step Value :=
  match bs with
  | b :: rest =>
    if isExponentLetter b then exponent negative significand base rest
    else finish negative significand base bs
  | [] => finish negative significand base []

/-- The digits after a point. Those that the significand has no room for are left out. -/
def fractionDigits (negative : Bool) (significand : Nat) (base : Int) : Bytes → Step Value
  | [] => afterFraction negative significand base []
  | b :: rest =>
    match digit? b with
    | none => afterFraction negative significand base (b :: rest)
    | some d =>
      if maxWord < significand * 10 + d then
        afterFraction negative significand base (dropDigits (b :: rest))
      else fractionDigits negative (significand * 10 + d) (base - 1) rest

def fraction (negative : Bool) (significand : Nat) (base : Int) (bs : Bytes) : Step Value :=
  match bs with
  | [] => .error ⟨.endOfValue, [], .ahead⟩
  | b :: rest =>
    match digit? b with
    | none => .error ⟨.invalidNumber, b :: rest, .ahead⟩
    | some _ => fractionDigits negative significand base bs

/-- The digits of a whole part that the significand has no room for: each only moves the point. -/
def longDigits (negative : Bool) (significand : Nat) (moved : Nat) : Bytes → Step Value
  | [] => finish negative significand moved []
  | b :: rest =>
    if (digit? b).isSome then longDigits negative significand (moved + 1) rest
    else if b = 0x2e then fraction negative significand moved rest
    else if isExponentLetter b then exponent negative significand moved rest
    else finish negative significand moved (b :: rest)

def afterWhole (negative : Bool) (significand : Nat) (bs : Bytes) : Step Value :=
  match bs with
  | [] => .ok (whole negative significand, [])
  | b :: rest =>
    if b = 0x2e then fraction negative significand 0 rest
    else if isExponentLetter b then exponent negative significand 0 rest
    else .ok (whole negative significand, bs)

def wholeDigits (negative : Bool) (significand : Nat) : Bytes → Step Value
  | [] => afterWhole negative significand []
  | b :: rest =>
    match digit? b with
    | none => afterWhole negative significand (b :: rest)
    | some d =>
      if maxWord < significand * 10 + d then longDigits negative significand 0 (b :: rest)
      else wholeDigits negative (significand * 10 + d) rest

/-- A number after its sign. Its first digit is zero only if it is the only one. -/
def unsigned (negative : Bool) : Bytes → Step Value
  | [] => .error ⟨.endOfValue, [], .here⟩
  | b :: rest =>
    match digit? b with
    | none => .error ⟨.invalidNumber, rest, .here⟩
    | some 0 =>
      match rest.head?.bind digit? with
      | some _ => .error ⟨.invalidNumber, rest, .ahead⟩
      | none => afterWhole negative 0 rest
    | some d => wholeDigits negative d rest

end Number

end BuildWatch.Json
