import BuildWatch.Glob.Symbol

namespace BuildWatch.Glob

/-- A part of a pattern. The three that stand for directories at any depth come from two stars that
are a whole component. -/
inductive Token where
  | literal (c : Char)
  | any
  | many
  | leadingDirs
  | trailingDirs
  | innerDirs
  | cls (set : CharSet)
  | alternatives (branches : List (List Token))

structure Group where
  branches : List (List Token)
  before : List Token

/-- The open groups, innermost first, and the tokens of the branch at hand, last first. -/
structure Builder where
  groups : List Group
  tokens : List Token

namespace Builder

def start : Builder := ⟨[], []⟩

def push (b : Builder) (t : Token) : Builder := { b with tokens := t :: b.tokens }

def openGroup (b : Builder) : Builder := ⟨⟨[], b.tokens⟩ :: b.groups, []⟩

def comma (b : Builder) : Builder :=
  match b.groups with
  | [] => b.push (.literal ',')
  | g :: groups => ⟨{ g with branches := b.tokens.reverse :: g.branches } :: groups, []⟩

def closeGroup (b : Builder) : Except Defect Builder :=
  match b.groups with
  | [] => .error .unopenedGroup
  | g :: groups =>
    .ok ⟨groups, .alternatives (b.tokens.reverse :: g.branches).reverse :: g.before⟩

/-- Two stars after a slash take it along, unless what stands there matches directories already. -/
def pushDirs (b : Builder) (dirs : Token) : Builder :=
  match b.tokens with
  | .leadingDirs :: _ => b
  | .trailingDirs :: _ => b
  | _ :: tokens => { b with tokens := dirs :: tokens }
  | [] => b.push dirs

def twoStars (b : Builder) : Builder := (b.push .many).push .many

def atSlash : List Symbol → Bool
  | .literal c :: _ => c = '/'
  | _ => false

def atBranchEnd : List Symbol → Bool
  | .comma :: _ => true
  | .closing :: _ => true
  | _ => false

def doubleStar (b : Builder) (last : Option Char) (next : List Symbol) : Builder × Bool :=
  let slash := atSlash next
  if b.tokens.isEmpty then
    if slash then (b.push .leadingDirs, true)
    else if next.isEmpty then (b.push .leadingDirs, false)
    else (b.twoStars, false)
  else if last ≠ some '/' ∧ (b.groups.isEmpty ∨ (last ≠ some ',' ∧ last ≠ some '\x7b')) then
    (b.twoStars, false)
  else if slash then (b.pushDirs .innerDirs, true)
  else if next.isEmpty ∨ (!b.groups.isEmpty ∧ atBranchEnd next) then
    (b.pushDirs .trailingDirs, false)
  else (b.twoStars, false)

def finish (b : Builder) : Except Defect (List Token) :=
  if b.groups.isEmpty then .ok b.tokens.reverse else .error .unclosedGroup

def run (b : Builder) (last : Option Char) : List Symbol → Except Defect (List Token)
  | [] => b.finish
  | .defect d :: _ => .error d
  | .literal c :: s => run (b.push (.literal c)) (some c) s
  | .escaped c :: s => run (b.push (.literal c)) (some c) s
  | .question :: s => run (b.push .any) (some '?') s
  | .cls set :: s => run (b.push (.cls set)) (some ']') s
  | .opening :: s => run b.openGroup (some '\x7b') s
  | .comma :: s => run b.comma (some ',') s
  | .closing :: s =>
    match b.closeGroup with
    | .error d => .error d
    | .ok b => run b (some '\x7d') s
  | .star :: .star :: .literal c :: s =>
    let (b, taken) := b.doubleStar last (.literal c :: s)
    if taken then run b (some c) s else run (b.push (.literal c)) (some c) s
  | .star :: .star :: s => run (b.doubleStar last s).1 (some '*') s
  | .star :: s => run (b.push .many) (some '*') s

end Builder

def tokensOf (pattern : String) : Except Defect (List Token) :=
  Builder.start.run none (Symbol.scan .plain pattern.toList)

end BuildWatch.Glob
