import BuildWatch.Json.Number
import Mathlib.Data.List.Basic

namespace BuildWatch.Json

def Digits (ds : Bytes) : Prop := ∀ b ∈ ds, (digit? b).isSome

def extend (n : Nat) (ds : Bytes) : Nat := ds.foldl (fun n b => n * 10 + (digit? b).getD 0) n

structure Exponent where
  letter : UInt8
  sign : Option UInt8
  digits : Bytes
  isLetter : Number.isExponentLetter letter
  isSign : ∀ b ∈ sign, b = 0x2b ∨ b = 0x2d
  isDigits : Digits digits
  nonempty : digits ≠ []

namespace Exponent

def text (e : Exponent) : Bytes := e.letter :: (e.sign.toList ++ e.digits)

def isDown (e : Exponent) : Bool := e.sign = some 0x2d

def size (e : Exponent) : Nat := extend 0 e.digits

end Exponent

/-- A number as it is written. There is a point only if digits follow it, and a zero in front only
as the whole part. -/
structure Numeral where
  negative : Bool
  whole : Bytes
  fraction : Bytes
  exponent : Option Exponent
  wholeDigits : Digits whole
  wholeStart : whole = [0x30] ∨ ∃ b ds, whole = b :: ds ∧ b ≠ 0x30
  fractionDigits : Digits fraction

def fractionText : Bytes → Bytes
  | [] => []
  | b :: ds => 0x2e :: b :: ds

def exponentText : Option Exponent → Bytes
  | none => []
  | some e => e.text

namespace Number

/-- The number that the digits write which the significand has room for, and how many of them it has
no room for. -/
def fit (n : Nat) : Bytes → Nat × Nat
  | [] => (n, 0)
  | b :: ds =>
    if maxWord < n * 10 + (digit? b).getD 0 then (n, ds.length + 1)
    else fit (n * 10 + (digit? b).getD 0) ds

/-- A significand times ten to an exponent, as a double. An exponent out of all bounds makes zero,
or is too large. -/
def raised? (negative : Bool) (significand : Nat) (base : Int) (down : Bool) (size : Nat) :
    Option Value :=
  if maxExponent < size then
    if significand ≠ 0 ∧ !down then none else some (.float (if negative then -0.0 else 0.0))
  else (float? negative significand (if down then base - size else base + size)).map .float

def scaled? (negative : Bool) (significand : Nat) (base : Int) : Option Exponent → Option Value
  | none => (float? negative significand base).map .float
  | some e => raised? negative significand base e.isDown e.size

end Number

namespace Numeral

def digits (n : Numeral) : Bytes := n.whole ++ (fractionText n.fraction ++ exponentText n.exponent)

def text (n : Numeral) : Bytes := (if n.negative then [0x2d] else []) ++ n.digits

def magnitude (n : Numeral) : Nat := extend 0 n.whole

/-- The whole number that is written, if there is neither a fraction nor an exponent. Minus zero is
none. -/
def integer? (n : Numeral) : Option Int :=
  if n.fraction = [] ∧ n.exponent = none ∧ ¬(n.negative ∧ n.magnitude = 0) then
    some (if n.negative then -n.magnitude else n.magnitude)
  else none

/-- The double that is written, unless it is too large. Whole parts of 64 bits are taken as they are,
and the digits of a longer one that the significand has no room for only move the point. -/
def double? (n : Numeral) : Option Value :=
  if n.fraction = [] ∧ n.exponent = none ∧ n.magnitude ≤ Number.maxWord then
    some (.float (-(UInt64.ofNat n.magnitude).toFloat))
  else
    let (significand, moved) := Number.fit 0 n.whole
    let (significand, ignored) := Number.fit significand n.fraction
    Number.scaled? n.negative significand (moved - (n.fraction.length - ignored : Nat)) n.exponent

/-- What a number stands for: a whole number of 64 bits if it is written as one, else a double. -/
def value? (n : Numeral) : Option Value :=
  match n.integer? with
  | some i => if -0x8000000000000000 ≤ i ∧ i ≤ 0xffffffffffffffff then some (.int i) else n.double?
  | none => n.double?

end Numeral

end BuildWatch.Json
