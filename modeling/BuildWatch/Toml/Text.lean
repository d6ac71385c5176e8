namespace BuildWatch.Toml

abbrev Step (α : Type) := Option (α × List Char)

def isPrintable (c : Char) : Bool := c = '\t' || (0x20 ≤ c.toNat && c.toNat ≠ 0x7f)

def isSpace (c : Char) : Bool := c = ' ' || c = '\t'

def skipSpaces (s : List Char) : List Char := s.dropWhile isSpace

def hexDigit? (c : Char) : Option Nat :=
  if '0' ≤ c ∧ c ≤ '9' then some (c.toNat - 48)
  else if 'a' ≤ c ∧ c ≤ 'f' then some (c.toNat - 87)
  else if 'A' ≤ c ∧ c ≤ 'F' then some (c.toNat - 55)
  else none

def charOf? (n : Nat) : Option Char := if n.isValidChar then some (Char.ofNat n) else none

inductive Escape where
  | char (c : Char)
  | hex (digits : Nat)

def escape? (c : Char) : Option Escape :=
  match c with
  | 'b' => some (.char '\x08')
  | 't' => some (.char '\t')
  | 'n' => some (.char '\n')
  | 'f' => some (.char '\x0c')
  | 'r' => some (.char '\r')
  | 'e' => some (.char '\x1b')
  | '"' => some (.char '"')
  | '\\' => some (.char '\\')
  | 'x' => some (.hex 2)
  | 'u' => some (.hex 4)
  | 'U' => some (.hex 8)
  | _ => none

/-- Where a reader is inside a basic string. The states after `hex` occur in strings of several
lines only: a backslash that ends a line, before and after the line's end, a number of quotes that
may close the string, and a carriage return that a line feed must follow, in the text or after such
a backslash. -/
inductive State where
  | plain
  | escape
  | hex (missing bits : Nat)
  | lineEnd
  | trimming
  | quotes (count : Nat)
  | return
  | trimReturn

namespace Basic

def line (done : List Char) : State → List Char → Step (List Char)
  | .plain, c :: s =>
    if c = '"' then some (done.reverse, s)
    else if c = '\\' then line done .escape s
    else if isPrintable c then line (c :: done) .plain s
    else none
  | .escape, c :: s =>
    match escape? c with
    | some (.char e) => line (e :: done) .plain s
    | some (.hex digits) => line done (.hex digits 0) s
    | none => none
  | .hex missing bits, c :: s =>
    match hexDigit? c with
    | none => none
    | some d =>
      if missing = 1 then
        match charOf? (bits * 16 + d) with
        | some e => line (e :: done) .plain s
        | none => none
      else line done (.hex (missing - 1) (bits * 16 + d)) s
  | _, _ => none

def plainStep (done : List Char) (c : Char) : Option (List Char × State) :=
  if c = '"' then some (done, .quotes 1)
  else if c = '\\' then some (done, .escape)
  else if c = '\n' then some (c :: done, .plain)
  else if c = '\r' then some (c :: done, .return)
  else if isPrintable c then some (c :: done, .plain)
  else none

def addQuotes (done : List Char) (count : Nat) : List Char := List.replicate count '"' ++ done

/-- A string of several lines after its opening quotes. Three quotes close it, with up to two more
before them, and a backslash at the end of a line takes the blanks after it along. -/
def lines (done : List Char) : State → List Char → Step (List Char)
  | .quotes count, [] => if 3 ≤ count then some ((addQuotes done (count - 3)).reverse, []) else none
  | _, [] => none
  | .plain, c :: s =>
    match plainStep done c with
    | some (done, state) => lines done state s
    | none => none
  | .return, c :: s => if c = '\n' then lines (c :: done) .plain s else none
  | .trimReturn, c :: s => if c = '\n' then lines done .trimming s else none
  | .quotes count, c :: s =>
    if c = '"' then
      if count = 4 then some ((addQuotes done 2).reverse, s) else lines done (.quotes (count + 1)) s
    else if 3 ≤ count then some ((addQuotes done (count - 3)).reverse, c :: s)
    else
      match plainStep (addQuotes done count) c with
      | some (done, state) => lines done state s
      | none => none
  | .escape, c :: s =>
    if c = '\n' then lines done .trimming s
    else if c = '\r' then lines done .trimReturn s
    else if isSpace c then lines done .lineEnd s
    else
      match escape? c with
      | some (.char e) => lines (e :: done) .plain s
      | some (.hex digits) => lines done (.hex digits 0) s
      | none => none
  | .hex missing bits, c :: s =>
    match hexDigit? c with
    | none => none
    | some d =>
      if missing = 1 then
        match charOf? (bits * 16 + d) with
        | some e => lines (e :: done) .plain s
        | none => none
      else lines done (.hex (missing - 1) (bits * 16 + d)) s
  | .lineEnd, c :: s =>
    if c = '\n' then lines done .trimming s
    else if c = '\r' then lines done .trimReturn s
    else if isSpace c then lines done .lineEnd s
    else none
  | .trimming, c :: s =>
    if isSpace c ∨ c = '\n' then lines done .trimming s
    else if c = '\r' then lines done .trimReturn s
    else
      match plainStep done c with
      | some (done, state) => lines done state s
      | none => none

end Basic

namespace Literal

def line (done : List Char) : List Char → Step (List Char)
  | [] => none
  | c :: s =>
    if c = '\'' then some (done.reverse, s)
    else if isPrintable c then line (c :: done) s
    else none

def lines (done : List Char) (count : Nat) : List Char → Step (List Char)
  | [] => if 3 ≤ count then some ((List.replicate (count - 3) '\'' ++ done).reverse, []) else none
  | c :: s =>
    if c = '\'' then
      if count = 4 then some ((['\'', '\''] ++ done).reverse, s) else lines done (count + 1) s
    else if 3 ≤ count then
      some ((List.replicate (count - 3) '\'' ++ done).reverse, c :: s)
    else if c = '\n' ∨ isPrintable c ∨ (c = '\r' ∧ s.head? = some '\n') then
      lines (c :: (List.replicate count '\'' ++ done)) 0 s
    else none

end Literal

/-- A line end right after the opening quotes does not belong to the string. -/
def dropFirstLineEnd : List Char → List Char
  | '\n' :: s => s
  | '\r' :: '\n' :: s => s
  | s => s

def string? : List Char → Option (Step (List Char))
  | '"' :: '"' :: '"' :: s => some (Basic.lines [] .plain (dropFirstLineEnd s))
  | '"' :: s => some (Basic.line [] .plain s)
  | '\'' :: '\'' :: '\'' :: s => some (Literal.lines [] 0 (dropFirstLineEnd s))
  | '\'' :: s => some (Literal.line [] s)
  | _ => none

def isBareKeyChar (c : Char) : Bool := c.isAlphanum || c = '_' || c = '-'

def name : List Char → Step String
  | '"' :: s => (Basic.line [] .plain s).map fun (n, s) => (.ofList n, s)
  | '\'' :: s => (Literal.line [] s).map fun (n, s) => (.ofList n, s)
  | s =>
    let n := s.takeWhile isBareKeyChar
    if n.isEmpty then none else some (.ofList n, s.dropWhile isBareKeyChar)

def names : (count : Nat) → List Char → Step (List String)
  | 0, _ => none
  | count + 1, s =>
    match name s with
    | none => none
    | some (n, s) =>
      match skipSpaces s with
      | '.' :: s => (names count (skipSpaces s)).map fun (ns, s) => (n :: ns, s)
      | s => some ([n], s)

/-- The most names in a key, and the most lists and tables around a value. -/
def maxDepth : Nat := 80

def key : List Char → Step (List String) := names maxDepth

end BuildWatch.Toml
