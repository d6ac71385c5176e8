import BuildWatch.Failure
import BuildWatch.Execution.Capture

namespace BuildWatch.Execution

inductive Ending where
  | exits (status : Status)
  | runsOn
  deriving DecidableEq, Repr

structure Behaviour where
  stdout : Bytes
  stderr : Bytes
  ending : Ending
  deriving DecidableEq, Repr

def maxOutput : Nat := 16 * 1024 * 1024

def maxErrors : Nat := 64 * 1024

/-- The output of a process that ended in the way it did. Too much of it is worse than a failure. -/
def outputOf (b : Behaviour) (status : Status) : Except Failure Bytes :=
  let out := captureStream maxOutput b.stdout
  if out.truncated then .error (.tooLarge maxOutput)
  else if status.isSuccess then .ok out.bytes
  else .error (.exited status (.ofList (Utf8.decodeLossy (captureStream maxErrors b.stderr).bytes)))

/-- What comes of a process within a limit in milliseconds: nothing ever, if it has none and does
not end by itself. -/
def outcome? (limit : Option UInt64) (b : Behaviour) : Option (Except Failure Bytes) :=
  match b.ending, limit with
  | .exits status, _ => some (outputOf b status)
  | .runsOn, some ms => some (.error (.timedOut ms))
  | .runsOn, none => none

end BuildWatch.Execution
