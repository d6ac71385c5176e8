import BuildWatch.Execution.Machine

namespace BuildWatch

structure RunId where
  number : Nat
  deriving DecidableEq, Repr

def RunId.text (id : RunId) : String := "run-" ++ toString id.number

/-- The slot that the task of a run hands its result over in: still empty, filled, or given up. -/
inductive Slot where
  | waiting
  | filled (result : Except Failure Bytes)
  | closed

structure Run where
  id : RunId
  behaviour : Execution.Behaviour
  cancelled : Bool
  slot : Slot

namespace Run

/-- Let the task of a run go on for as long as it can. It looks for a cancellation first, and hands
its result over at most once. -/
def settle (limit : Option UInt64) (r : Run) : Run :=
  match r.slot with
  | .waiting =>
    if r.cancelled then { r with slot := .closed }
    else
      match Execution.outcome? limit r.behaviour with
      | some result => { r with slot := .filled result }
      | none => r
  | _ => r

def result? (r : Run) : Option (Except Failure (List Record)) :=
  match r.slot with
  | .waiting => none
  | .closed => some (.error .cancelled)
  | .filled (.error e) => some (.error e)
  | .filled (.ok payload) => some ((Record.parseAll payload).mapError .payload)

end Run

/-- The runs of the build tool. At most one of them is current, and all that were started stay known
to those that wait for them. -/
structure Runs where
  limit : Option UInt64
  issued : Nat
  current : Option RunId
  started : List Run

namespace Runs

def new (limit : Option UInt64) : Runs := ⟨limit, 0, none, []⟩

def run? (s : Runs) (id : RunId) : Option Run := s.started.find? fun r => r.id = id

def isCancelled (s : Runs) (id : RunId) : Bool := ((s.run? id).map Run.cancelled).getD false

def updateRun (s : Runs) (id : RunId) (f : Run → Run) : Runs :=
  { s with started := s.started.map fun r => if r.id = id then f r else r }

def cancelRun (s : Runs) (id : RunId) : Runs :=
  s.updateRun id fun r => { r with cancelled := true }

def forget (s : Runs) (id : RunId) : Runs :=
  if s.current = some id then { s with current := none } else s

def cancel (s : Runs) (id : RunId) : Runs := (s.cancelRun id).forget id

def cancelCurrent (s : Runs) : Runs :=
  match s.current with
  | some id => s.cancel id
  | none => s

/-- Start a run, after the current one is cancelled. A start that fails takes no number. -/
def start (s : Runs) (m : Execution.Machine) (tool : String) (argument : Path) :
    Runs × Except StartError RunId :=
  let s := s.cancelCurrent
  match m.start tool argument with
  | .error e => (s, .error e)
  | .ok behaviour =>
    let id := ⟨s.issued + 1⟩
    ({ s with
        issued := s.issued + 1
        current := some id
        started := ⟨id, behaviour, false, .waiting⟩ :: s.started }, .ok id)

def settle (s : Runs) (id : RunId) : Runs := s.updateRun id (Run.settle s.limit)

def result? (s : Runs) (id : RunId) : Option (Except Failure (List Record)) :=
  (s.run? id).bind Run.result?

end Runs

end BuildWatch
