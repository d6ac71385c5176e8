import BuildWatch.Text.Blank

namespace BuildWatch.Text

/-- The lines of a text, with `cur` the reversed beginning of the first one. -/
def linesFrom (cur : List Char) : List Char → List (List Char)
  | [] => if cur.isEmpty then [] else [cur.reverse]
  | c :: s =>
    if c = '\n' then
      (match cur with
        | '\r' :: cur => cur.reverse
        | cur => cur.reverse) :: linesFrom [] s
    else linesFrom (c :: cur) s

/-- Lines end in a line feed, which takes a carriage return before it along. -/
def lines (s : List Char) : List (List Char) := linesFrom [] s

def lastVisibleLine (s : List Char) : Option (List Char) :=
  ((lines s).reverse.map trim).find? fun l => !l.isEmpty

def indentRest (s : List Char) : List Char :=
  s.flatMap fun c => if c = '\n' then ['\n', ' ', ' ', ' ', ' '] else [c]

end BuildWatch.Text
