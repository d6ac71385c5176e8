import BuildWatch.Toml.Document

namespace BuildWatch.Toml

def skipComment : List Char → Option (List Char)
  | [] => some []
  | '\n' :: s => some ('\n' :: s)
  | '\r' :: '\n' :: s => some ('\n' :: s)
  | c :: s => if isPrintable c then skipComment s else none

def skipLines : (fuel : Nat) → List Char → Option (List Char)
  | 0, s => some s
  | fuel + 1, s =>
    match skipSpaces s with
    | '\n' :: s => skipLines fuel s
    | '\r' :: '\n' :: s => skipLines fuel s
    | '#' :: s => (skipComment s).bind (skipLines fuel)
    | s => some s

def endsScalar (c : Char) : Bool :=
  isSpace c || c = '\n' || c = '\r' || c = '#' || c = ',' || c = '=' ||
    c = '[' || c = ']' || c = '\x7b' || c = '\x7d'

def takeWord (s : List Char) : List Char := s.takeWhile fun c => !endsScalar c

/-- A number, a truth value or a date. A date and its time may have a space between them. -/
def scalar (s : List Char) : Step Node :=
  let word := takeWord s
  let rest := s.drop word.length
  let joined : List Char × List Char :=
    match day? word, rest with
    | some [], ' ' :: c :: more =>
      if c.isDigit then
        let time := takeWord (c :: more)
        (word ++ ' ' :: time, (c :: more).drop time.length)
      else (word, rest)
    | _, _ => (word, rest)
  (scalar? joined.1).map fun value => (.scalar value, joined.2)

def items (item : List Char → Step Node) (room : Nat) :
    (fuel : Nat) → List Node → List Char → Step Node
  | 0, _, _ => none
  | fuel + 1, done, s =>
    match skipLines room s with
    | none => none
    | some (']' :: s) => some (.list done.reverse, s)
    | some s =>
      match item s with
      | none => none
      | some (node, s) =>
        match skipLines room s with
        | some (',' :: s) => items item room fuel (node :: done) s
        | some (']' :: s) => some (.list (node :: done).reverse, s)
        | _ => none

def pair (item : List Char → Step Node) (skip : List Char → Option (List Char)) (s : List Char) :
    Option ((List String × Node) × List Char) := do
  let (k, s) ← key s
  let s ← expect '=' (← skip s)
  let (node, s) ← item (← skip s)
  return ((k, node), s)

def members (item : List Char → Step Node) (room : Nat) :
    (fuel : Nat) → Entries → List Char → Step Node
  | 0, _, _ => none
  | fuel + 1, done, s =>
    match skipLines room s with
    | none => none
    | some ('\x7d' :: s) => some (.table .inline done, s)
    | some s =>
      match pair item (skipLines room) s with
      | none => none
      | some ((k, node), s) =>
        match assign k node ⟨.header, done⟩ with
        | none => none
        | some t =>
          match skipLines room s with
          | some (',' :: s) => members item room fuel t.entries s
          | some ('\x7d' :: s) => some (.table .inline t.entries, s)
          | _ => none

def value (room : Nat) : (depth : Nat) → List Char → Step Node
  | depth, s =>
    match string? s with
    | some result => result.map fun (text, s) => (.string (.ofList text), s)
    | none =>
      match depth, s with
      | depth + 1, '[' :: s => items (value room depth) room room [] s
      | depth + 1, '\x7b' :: s => members (value room depth) room room [] s
      | _, s => scalar s

def endLine (s : List Char) : Option (List Char) :=
  match skipSpaces s with
  | '#' :: s => skipComment s
  | [] => some []
  | '\n' :: s => some ('\n' :: s)
  | '\r' :: '\n' :: s => some ('\n' :: s)
  | _ => none

def statement (room : Nat) (s : List Char) : Step Statement :=
  match s with
  | '[' :: '[' :: s =>
    match key (skipSpaces s) with
    | some (k, ']' :: ']' :: s) => some (.listed k, s)
    | _ => none
  | '[' :: s =>
    match key (skipSpaces s) with
    | some (k, ']' :: s) => some (.header k, s)
    | _ => none
  | s =>
    (pair (value room maxDepth) (fun s => some (skipSpaces s)) s).map fun ((k, node), s) =>
      (.assignment k node, s)

def statements (room : Nat) : (fuel : Nat) → List Statement → List Char → Option (List Statement)
  | 0, _, _ => none
  | fuel + 1, done, s =>
    match skipLines room s with
    | none => none
    | some [] => some done.reverse
    | some s =>
      match statement room s with
      | none => none
      | some (found, s) => (endLine s).bind (statements room fuel (found :: done))

def dropByteOrderMark : List Char → List Char
  | '\ufeff' :: s => s
  | s => s

def parse? (text : List Char) : Option Entries :=
  let s := dropByteOrderMark text
  let room := s.length + 1
  ((statements room room [] s).bind (build [] ⟨.header, []⟩)).map Table.entries

end BuildWatch.Toml
