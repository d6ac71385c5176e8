import BuildWatch.Publisher

namespace BuildWatch

inductive Command where
  | trigger (t : Trigger)
  | cancel
  deriving Repr

/-- A publisher behind a queue of commands, which clients can close. It waits for the next command
and for the result of the pending run at the same time, and may take either when both are there. -/
structure Service where
  publisher : Publisher
  pending : Option RunId
  queue : List Command
  isOpen : Bool
  hasEnded : Bool

namespace Service

def ofPublisher (p : Publisher) : Service := ⟨p, none, [], true, false⟩

def send (s : Service) (command : Command) : Service :=
  if s.isOpen then { s with queue := s.queue ++ [command] } else s

def close (s : Service) : Service := { s with isOpen := false }

/-- Carry out a command. The result of the run before it is not waited for any longer, and that of a
run that the command starts is waited for from now on. -/
def handle (p : Publisher) (m : Execution.Machine) :
    Command → Publisher × Option RunId × Output
  | .cancel =>
    let (p, out) := p.cancel
    (p, none, out)
  | .trigger t =>
    let (p, superseded) := p.supersede
    match p.startRun m t with
    | (p, .ok id) => (p, some id, superseded)
    | (p, .error report) => (p, none, superseded ++ .report report)

/-- Take the next command. When there will be none any more, the run in flight is cancelled, and
nobody is told of it. -/
def next (s : Service) (m : Execution.Machine) : Service × Output :=
  if s.hasEnded then (s, .none)
  else
    match s.queue with
    | command :: queue =>
      let (publisher, pending, out) := handle s.publisher m command
      ({ s with publisher, pending, queue }, out)
    | [] =>
      if s.isOpen then (s, .none)
      else
        let (publisher, out) := s.publisher.cancel
        ({ s with publisher, pending := none, hasEnded := true }, ⟨out.edits, []⟩)

def settle (s : Service) (id : RunId) : Service :=
  { s with publisher := s.publisher.settle id }

def collect (s : Service) : Service × Output :=
  match s.pending with
  | none => (s, .none)
  | some id =>
    match s.publisher.runs.result? id with
    | none => (s, .none)
    | some result =>
      let (p, out) := s.publisher.conclude id result
      ({ s with publisher := p, pending := none }, out)

inductive Event where
  | send (command : Command)
  | close
  | next (m : Execution.Machine)
  | settle (id : RunId)
  | collect

def step (s : Service) : Event → Service × Output
  | .send command => (s.send command, .none)
  | .close => (s.close, .none)
  | .next m => s.next m
  | .settle id => (s.settle id, .none)
  | .collect => if s.hasEnded then (s, .none) else s.collect

def run (s : Service) : List Event → Service × Output
  | [] => (s, .none)
  | e :: es =>
    let (s, out) := s.step e
    let (s, rest) := s.run es
    (s, out ++ rest)

def await (s : Service) : Service × Output :=
  match s.pending with
  | none => (s, .none)
  | some id => (s.settle id).collect

end Service

end BuildWatch
