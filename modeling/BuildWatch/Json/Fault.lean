import BuildWatch.Text.Utf8

namespace BuildWatch.Json

inductive Cause where
  | endOfValue
  | endOfString
  | endOfList
  | endOfObject
  | expectedValue
  | expectedIdent
  | invalidNumber
  | numberOutOfRange
  | controlCharacter
  | invalidEscape
  | loneSurrogate
  | unfinishedPair
  | invalidUnicode
  | trailingComma
  | expectedListSeparator
  | expectedObjectSeparator
  | keyNotString
  | expectedColon
  | tooDeep
  | trailingCharacters
  deriving DecidableEq, Repr

def Cause.message : Cause → String
  | .endOfValue => "EOF while parsing a value"
  | .endOfString => "EOF while parsing a string"
  | .endOfList => "EOF while parsing a list"
  | .endOfObject => "EOF while parsing an object"
  | .expectedValue => "expected value"
  | .expectedIdent => "expected ident"
  | .invalidNumber => "invalid number"
  | .numberOutOfRange => "number out of range"
  | .controlCharacter => "control character (\\u0000-\\u001F) found while parsing a string"
  | .invalidEscape => "invalid escape"
  | .loneSurrogate => "lone leading surrogate in hex escape"
  | .unfinishedPair => "unexpected end of hex escape"
  | .invalidUnicode => "invalid unicode code point"
  | .trailingComma => "trailing comma"
  | .expectedListSeparator => "expected `,` or `]`"
  | .expectedObjectSeparator => "expected `,` or `\x7d`"
  | .keyNotString => "key must be a string"
  | .expectedColon => "expected `:`"
  | .tooDeep => "recursion limit exceeded"
  | .trailingCharacters => "trailing characters"

/-- Where the reader stands when it gives up: at the first byte it has not taken, on that byte, or a
number of bytes before it. -/
inductive Aim where
  | here
  | ahead
  | back (n : Nat)
  deriving DecidableEq, Repr

structure Stop where
  cause : Cause
  rest : Bytes
  aim : Aim
  deriving DecidableEq, Repr

/-- A cause with its place. Lines count from one, and columns count the bytes of the line. -/
structure Fault where
  cause : Cause
  line : Nat
  column : Nat
  deriving DecidableEq, Repr

namespace Fault

def position (line column : Nat) : Bytes → Nat × Nat
  | [] => (line, column)
  | b :: bs => if b = 0x0a then position (line + 1) 0 bs else position line (column + 1) bs

def ofStop (payload : Bytes) (s : Stop) : Fault :=
  let taken := payload.length - s.rest.length
  let ahead := if s.aim = .ahead then 1 else 0
  let (line, column) := position 1 0 (payload.take (taken + ahead))
  match s.aim with
  | .back n => ⟨s.cause, line, column - n⟩
  | _ => ⟨s.cause, line, column⟩

def message (f : Fault) : String :=
  f.cause.message ++ " at line " ++ toString f.line ++ " column " ++ toString f.column

end Fault

end BuildWatch.Json
