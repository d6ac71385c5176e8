import BuildWatch.Failure
import BuildWatch.Runs

namespace BuildWatch

structure Summary where
  reported : Nat
  published : Nat
  files : Nat
  deriving DecidableEq, Repr

namespace Summary

def isClean (s : Summary) : Bool := s.reported = 0

def pluralEnding (n : Nat) : String := if n = 1 then "" else "s"

def message (s : Summary) : String :=
  if s.isClean then "Build succeeded with no errors"
  else
    let hidden := s.reported - s.published
    "Build reported " ++ toString s.reported ++ " error" ++ pluralEnding s.reported ++ " in " ++
      toString s.files ++ " file" ++ pluralEnding s.files ++
      if 0 < hidden then " (" ++ toString hidden ++ " outside the diagnostic scope)" else ""

end Summary

inductive Outcome where
  | succeeded (summary : Summary)
  | failed (failure : Failure)
  | superseded
  | cancelled

/-- The end of a run as the host sees it. A run that did not start has no number. -/
structure Report where
  run : Option RunId
  outcome : Outcome

namespace Report

def message? (r : Report) : Option String :=
  match r.outcome with
  | .succeeded summary => some summary.message
  | .failed failure => some failure.notice
  | .superseded => none
  | .cancelled => some Failure.cancelled.notice

def isSuperseded (r : Report) : Bool :=
  match r.outcome with
  | .superseded => true
  | _ => false

def line? (r : Report) : Option String :=
  r.message?.map fun message =>
    match r.outcome with
    | .succeeded _ => message
    | .failed _ => "error: " ++ message
    | .superseded => "note: " ++ message
    | .cancelled => "note: " ++ message

end Report

end BuildWatch
