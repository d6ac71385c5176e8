import BuildWatch.Json.Number

namespace BuildWatch.Json

namespace Characters

/-- Where a reader is inside a string: between characters, after a backslash, among the four digits
of an escape, or at the backslash or the letter of the second half of a surrogate pair. -/
inductive State where
  | plain
  | escape
  | hex (high : Option Nat) (digits : List UInt8)
  | pairEscape (high : Nat)
  | pairLetter (high : Nat)
  deriving DecidableEq, Repr

def hexDigit? (b : UInt8) : Option Nat :=
  if 0x30 ≤ b ∧ b ≤ 0x39 then some (b.toNat - 0x30)
  else if 0x41 ≤ b ∧ b ≤ 0x46 then some (b.toNat - 0x41 + 10)
  else if 0x61 ≤ b ∧ b ≤ 0x66 then some (b.toNat - 0x61 + 10)
  else none

def hexValue? (digits : List UInt8) : Option Nat :=
  digits.foldl (fun n b => n.bind fun n => (hexDigit? b).map fun d => n * 16 + d) (some 0)

def shortEscape? (b : UInt8) : Option UInt8 :=
  match Char.ofNat b.toNat with
  | '"' => some 0x22
  | '\\' => some 0x5c
  | '/' => some 0x2f
  | 'b' => some 0x08
  | 'f' => some 0x0c
  | 'n' => some 0x0a
  | 'r' => some 0x0d
  | 't' => some 0x09
  | _ => none

def isHighSurrogate (n : Nat) : Bool := 0xd800 ≤ n && n ≤ 0xdbff

def isLowSurrogate (n : Nat) : Bool := 0xdc00 ≤ n && n ≤ 0xdfff

def joinSurrogates (high low : Nat) : Nat := (high - 0xd800) * 0x400 + (low - 0xdc00) + 0x10000

inductive Unit16 where
  | fault (cause : Cause)
  | high (n : Nat)
  | char (c : Char)

def unit16 (high : Option Nat) (digits : List UInt8) : Unit16 :=
  match hexValue? digits, high with
  | none, _ => .fault .invalidEscape
  | some n, some high =>
    if isLowSurrogate n then .char (Char.ofNat (joinSurrogates high n)) else .fault .loneSurrogate
  | some n, none =>
    if isLowSurrogate n then .fault .loneSurrogate
    else if isHighSurrogate n then .high n
    else .char (Char.ofNat n)

/-- The bytes of a string up to its closing quote, on top of those in `done`, which are reversed. -/
def body (done : Bytes) : State → Bytes → Step Bytes
  | _, [] => .error ⟨.endOfString, [], .here⟩
  | .plain, b :: rest =>
    if b = 0x22 then .ok (done.reverse, rest)
    else if b = 0x5c then body done .escape rest
    else if b < 0x20 then .error ⟨.controlCharacter, rest, .here⟩
    else body (b :: done) .plain rest
  | .escape, b :: rest =>
    if b = 0x75 then body done (.hex none []) rest
    else match shortEscape? b with
      | some c => body (c :: done) .plain rest
      | none => .error ⟨.invalidEscape, rest, .here⟩
  | .hex high digits, b :: rest =>
    if digits.length < 3 then body done (.hex high (digits ++ [b])) rest
    else match unit16 high (digits ++ [b]) with
      | .fault cause => .error ⟨cause, rest, .here⟩
      | .high n => body done (.pairEscape n) rest
      | .char c => body ((String.utf8EncodeChar c).reverse ++ done) .plain rest
  | .pairEscape high, b :: rest =>
    if b = 0x5c then body done (.pairLetter high) rest
    else .error ⟨.unfinishedPair, rest, .here⟩
  | .pairLetter high, b :: rest =>
    if b = 0x75 then body done (.hex (some high) []) rest
    else .error ⟨.unfinishedPair, rest, .here⟩

end Characters

def string (bs : Bytes) : Step String :=
  match Characters.body [] .plain bs with
  | .error e => .error e
  | .ok (bytes, rest) =>
    match Utf8.decode? bytes with
    | some s => .ok (.ofList s, rest)
    | none => .error ⟨.invalidUnicode, rest, .back (bytes.length - Utf8.validLength bytes)⟩

end BuildWatch.Json
