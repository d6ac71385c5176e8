namespace BuildWatch

abbrev Bytes := List UInt8

namespace Utf8

def encode (s : List Char) : Bytes := s.flatMap String.utf8EncodeChar

def encodeString (s : String) : Bytes := encode s.toList

/-- A character of which the first bytes are read: how many are missing, the interval the next one
must lie in, and the bits read so far. -/
structure Opened where
  missing : Nat
  low : UInt8
  high : UInt8
  bits : Nat
  deriving DecidableEq, Repr

inductive Lead where
  | single (c : Char)
  | opens (o : Opened)
  | bad

def lead (b : UInt8) : Lead :=
  let n := b.toNat
  if n < 0x80 then .single (Char.ofNat n)
  else if n < 0xc2 then .bad
  else if n < 0xe0 then .opens ⟨1, 0x80, 0xbf, n - 0xc0⟩
  else if n = 0xe0 then .opens ⟨2, 0xa0, 0xbf, 0⟩
  else if n = 0xed then .opens ⟨2, 0x80, 0x9f, 0xd⟩
  else if n < 0xf0 then .opens ⟨2, 0x80, 0xbf, n - 0xe0⟩
  else if n = 0xf0 then .opens ⟨3, 0x90, 0xbf, 0⟩
  else if n < 0xf4 then .opens ⟨3, 0x80, 0xbf, n - 0xf0⟩
  else if n = 0xf4 then .opens ⟨3, 0x80, 0x8f, 4⟩
  else .bad

/-- The characters of a byte string in reverse, `none` for each maximal ill-formed piece, on top of
those in `done`. -/
def scan (done : List (Option Char)) : Option Opened → Bytes → List (Option Char)
  | none, [] => done
  | some _, [] => none :: done
  | none, b :: bs =>
    match lead b with
    | .single c => scan (some c :: done) none bs
    | .opens o => scan done (some o) bs
    | .bad => scan (none :: done) none bs
  | some o, b :: bs =>
    if o.low ≤ b ∧ b ≤ o.high then
      let bits := o.bits * 64 + (b.toNat - 0x80)
      if o.missing = 1 then scan (some (Char.ofNat bits) :: done) none bs
      else scan done (some ⟨o.missing - 1, 0x80, 0xbf, bits⟩) bs
    else
      match lead b with
      | .single c => scan (some c :: none :: done) none bs
      | .opens o' => scan (none :: done) (some o') bs
      | .bad => scan (none :: none :: done) none bs

def pieces (bs : Bytes) : List (Option Char) := (scan [] none bs).reverse

def decode? (bs : Bytes) : Option (List Char) :=
  let ps := pieces bs
  if ps.all Option.isSome then some (ps.filterMap id) else none

/-- Decoding with U+FFFD for each maximal ill-formed piece. -/
def decodeLossy (bs : Bytes) : List Char := (pieces bs).map fun p => p.getD '\ufffd'

def validLength (bs : Bytes) : Nat :=
  (encode (((pieces bs).takeWhile Option.isSome).filterMap id)).length

end Utf8

end BuildWatch
