import BuildWatch.Json.Characters

namespace BuildWatch.Json

def isBlank (b : UInt8) : Bool := b = 0x20 || b = 0x0a || b = 0x09 || b = 0x0d

def skipBlank (bs : Bytes) : Bytes := bs.dropWhile isBlank

def word (v : Value) : Bytes → Bytes → Step Value
  | [], rest => .ok (v, rest)
  | _ :: _, [] => .error ⟨.endOfValue, [], .here⟩
  | w :: ws, b :: rest =>
    if b = w then word v ws rest else .error ⟨.expectedIdent, rest, .here⟩

/-- The items of a list that has one, up to its closing bracket. Each takes a byte at least, so that
`room` for as many items as there are bytes never runs out. -/
def listItems (item : Bytes → Step Value) : Nat → List Value → Bytes → Step Value
  | 0, _, bs => .error ⟨.endOfList, bs, .ahead⟩
  | room + 1, done, bs =>
    match item bs with
    | .error e => .error e
    | .ok (v, rest) =>
      match skipBlank rest with
      | [] => .error ⟨.endOfList, [], .ahead⟩
      | b :: rest =>
        if b = 0x5d then .ok (.array (v :: done).reverse, rest)
        else if b = 0x2c then
          match skipBlank rest with
          | [] => .error ⟨.endOfValue, [], .ahead⟩
          | c :: rest =>
            if c = 0x5d then .error ⟨.trailingComma, c :: rest, .ahead⟩
            else listItems item room (v :: done) (c :: rest)
        else .error ⟨.expectedListSeparator, b :: rest, .ahead⟩

def list (item : Bytes → Step Value) (room : Nat) (bs : Bytes) : Step Value :=
  match skipBlank bs with
  | [] => .error ⟨.endOfList, [], .ahead⟩
  | b :: rest => if b = 0x5d then .ok (.array [], rest) else listItems item room [] (b :: rest)

def member (item : Bytes → Step Value) (bs : Bytes) : Step (String × Value) :=
  match string bs with
  | .error e => .error e
  | .ok (name, rest) =>
    match skipBlank rest with
    | [] => .error ⟨.endOfObject, [], .ahead⟩
    | b :: rest =>
      if b = 0x3a then
        match item rest with
        | .error e => .error e
        | .ok (v, rest) => .ok ((name, v), rest)
      else .error ⟨.expectedColon, b :: rest, .ahead⟩

def objectMembers (item : Bytes → Step Value) :
    Nat → List (String × Value) → Bytes → Step Value
  | 0, _, bs => .error ⟨.endOfObject, bs, .ahead⟩
  | room + 1, done, bs =>
    match member item bs with
    | .error e => .error e
    | .ok (m, rest) =>
      match skipBlank rest with
      | [] => .error ⟨.endOfObject, [], .ahead⟩
      | b :: rest =>
        if b = 0x7d then .ok (.object (m :: done).reverse, rest)
        else if b = 0x2c then
          match skipBlank rest with
          | [] => .error ⟨.endOfValue, [], .ahead⟩
          | c :: rest =>
            if c = 0x22 then objectMembers item room (m :: done) rest
            else if c = 0x7d then .error ⟨.trailingComma, c :: rest, .ahead⟩
            else .error ⟨.keyNotString, c :: rest, .ahead⟩
        else .error ⟨.expectedObjectSeparator, b :: rest, .ahead⟩

def object (item : Bytes → Step Value) (room : Nat) (bs : Bytes) : Step Value :=
  match skipBlank bs with
  | [] => .error ⟨.endOfObject, [], .ahead⟩
  | b :: rest =>
    if b = 0x7d then .ok (.object [], rest)
    else if b = 0x22 then objectMembers item room [] rest
    else .error ⟨.keyNotString, b :: rest, .ahead⟩

def scalar (b : UInt8) (rest : Bytes) : Step Value :=
  match Char.ofNat b.toNat with
  | 'n' => word .null [0x75, 0x6c, 0x6c] rest
  | 't' => word (.bool true) [0x72, 0x75, 0x65] rest
  | 'f' => word (.bool false) [0x61, 0x6c, 0x73, 0x65] rest
  | '"' =>
    match string rest with
    | .error e => .error e
    | .ok (s, rest) => .ok (.string s, rest)
  | '-' => Number.unsigned true rest
  | _ =>
    if (digit? b).isSome then Number.unsigned false (b :: rest)
    else .error ⟨.expectedValue, b :: rest, .ahead⟩

/-- A value in which lists and objects are nested at most `depth` deep. -/
def value (room : Nat) : (depth : Nat) → Bytes → Step Value
  | 0, bs =>
    match skipBlank bs with
    | [] => .error ⟨.endOfValue, [], .ahead⟩
    | b :: rest =>
      if b = 0x5b ∨ b = 0x7b then .error ⟨.tooDeep, b :: rest, .ahead⟩ else scalar b rest
  | depth + 1, bs =>
    match skipBlank bs with
    | [] => .error ⟨.endOfValue, [], .ahead⟩
    | b :: rest =>
      if b = 0x5b then list (value room depth) room rest
      else if b = 0x7b then object (value room depth) room rest
      else scalar b rest

def maxDepth : Nat := 127

def read (payload : Bytes) : Except Stop Value :=
  match value payload.length maxDepth payload with
  | .error e => .error e
  | .ok (v, rest) =>
    match skipBlank rest with
    | [] => .ok v
    | b :: rest => .error ⟨.trailingCharacters, b :: rest, .ahead⟩

def parse (payload : Bytes) : Except Fault Value :=
  (read payload).mapError (Fault.ofStop payload)

end BuildWatch.Json
