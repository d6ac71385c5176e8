import BuildWatch.Text.Blank
import BuildWatch.Text.Digit
import BuildWatch.Text.Pattern

namespace BuildWatch.Noise

open Text Text.Pattern

def number : Pattern := many1 isDigit

def level : Pattern :=
  .choice (ofList "debug".toList) (.choice (ofList "info".toList)
    (.choice (ofList "warn".toList) (ofList "error".toList)))

def tag : Pattern := .seq (char '[') (.seq level (char ']'))

def lineSpan : Pattern :=
  .seq number (.seq (char ':') (.seq number (opt (.seq (char '-') number))))

def corner : Pattern :=
  .seq (char '(') (.seq number (.seq (char ',') (.seq number (char ')'))))

def boxSpan : Pattern := .seq corner (.seq (char '-') corner)

def location : Pattern :=
  .seq (few1 fun c => !isBlank c) (.seq (char ':')
    (.seq (.choice lineSpan boxSpan) (.seq (char ':') (.many isBlank))))

/-- All up to the last tag on the first line, the blanks after it, and a location if one follows. -/
def pattern : Pattern :=
  .seq (.many (· ≠ '\n')) (.seq tag (.seq (.many isBlank) (opt location)))

def stripChars (s : List Char) : List Char := (pattern.rest? s).getD s

def strip (line : String) : String := .ofList (stripChars line.toList)

end BuildWatch.Noise
