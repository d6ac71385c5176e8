namespace BuildWatch.Text

/-- The characters with the Unicode property White_Space. -/
def isBlank (c : Char) : Bool :=
  let n := c.toNat
  (0x9 ≤ n && n ≤ 0xd) || n == 0x20 || n == 0x85 || n == 0xa0 || n == 0x1680 ||
    (0x2000 ≤ n && n ≤ 0x200a) || n == 0x2028 || n == 0x2029 || n == 0x202f ||
    n == 0x205f || n == 0x3000

def trimStart (s : List Char) : List Char := s.dropWhile isBlank

def trimEnd (s : List Char) : List Char := (s.reverse.dropWhile isBlank).reverse

def trim (s : List Char) : List Char := trimEnd (trimStart s)

def allBlank (s : List Char) : Bool := s.all isBlank

/-- Cut at the first blank, which belongs to neither part. -/
def splitAtBlank : List Char → Option (List Char × List Char)
  | [] => none
  | c :: s => if isBlank c then some ([], s)
    else (splitAtBlank s).map fun (a, b) => (c :: a, b)

def trimmed (s : String) : String := .ofList (trim s.toList)

end BuildWatch.Text
