import BuildWatch.Glob.Token

namespace BuildWatch.Glob

/-- What a pattern is made of, as far as it decides how paths are compared with it: the name of a
file in any directory, a whole path, an extension, the front or the back of a path, something that
ends in an extension, or something else. -/
inductive Form where
  | name
  | path
  | extension
  | front
  | back
  | suffixed
  | general
  deriving DecidableEq, Repr

namespace Form

def isLiteral : Token → Bool
  | .literal _ => true
  | _ => false

def isDot : Token → Bool
  | .literal c => c = '.'
  | _ => false

def isNamePart : Token → Bool
  | .literal c => c ≠ '/'
  | _ => false

def isExtensionPart (t : Token) : Bool := isNamePart t && !isDot t

def isExtension : List Token → Bool
  | t :: ts => isDot t && ts.all isExtensionPart
  | [] => false

def dropLeadingDirs : List Token → List Token
  | .leadingDirs :: ts => ts
  | ts => ts

def afterMany? : List Token → Option (List Token)
  | .many :: ts => some ts
  | _ => none

def isName : List Token → Bool
  | .leadingDirs :: ts => !ts.isEmpty && ts.all isNamePart
  | _ => false

def isFront (ts : List Token) : Bool :=
  match ts.getLast? with
  | some .many => !ts.dropLast.isEmpty && ts.dropLast.all isLiteral
  | some .trailingDirs => ts.dropLast.all isLiteral
  | _ => false

/-- A slash alone is not enough for the back of a path. -/
def isBack (ts : List Token) : Bool :=
  let back := (afterMany? (dropLeadingDirs ts)).getD (dropLeadingDirs ts)
  match back with
  | [] => false
  | [.literal '/'] => (match ts with
    | [.leadingDirs, _] => true
    | _ => false)
  | _ => back.all isLiteral

def isSuffixed (ts : List Token) : Bool :=
  ((ts.reverse.dropWhile isExtensionPart).head?.map isDot).getD false

def ofTokens (ts : List Token) : Form :=
  if isName ts then .name
  else if !ts.isEmpty && ts.all isLiteral then .path
  else if ((afterMany? (dropLeadingDirs ts)).map isExtension).getD false then .extension
  else if isFront ts then .front
  else if isBack ts then .back
  else if isSuffixed ts then .suffixed
  else .general

/-- Whether paths are compared by the name of a file or its extension, which the parent directory
`..` does not have. -/
def needsName : Form → Bool
  | .name => true
  | .extension => true
  | .suffixed => true
  | _ => false

end Form

end BuildWatch.Glob
