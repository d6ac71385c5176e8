import BuildWatch.Service
import BuildWatch.Watch.Event

namespace BuildWatch

structure Console where
  stdout : String
  stderr : String
  deriving DecidableEq, Repr

namespace Console

def empty : Console := ⟨"", ""⟩

def append (a b : Console) : Console := ⟨a.stdout ++ b.stdout, a.stderr ++ b.stderr⟩

instance : Append Console := ⟨append⟩

def ofOutput (out : Output) : Console :=
  ⟨.join (out.edits.map Edit.print),
    .join (out.reports.filterMap fun r => r.line?.map (· ++ "\n"))⟩

end Console

namespace Watch

inductive Response where
  | ignore
  | complain (e : EventError)
  | command (c : Command)
  | finish

def respond (policy : Policy) (root : Path) (line : String) : Response :=
  match Event.parse root line with
  | .error e => .complain e
  | .ok none => .ignore
  | .ok (some .quit) => .finish
  | .ok (some .stop) => .command .cancel
  | .ok (some event) =>
    match event.trigger? root with
    | some t => if policy.admits t then .command (.trigger t) else .ignore
    | none => .ignore

def firstCommands (settings : Settings) (root : Path) : List Command :=
  if settings.runOnOpen then [.trigger ⟨.command, root, none⟩] else []

structure Session where
  root : Path
  policy : Policy
  service : Service
  listening : Bool

namespace Session

/-- The first commands are in the queue before the host is listened to. -/
def ofSettings (settings : Settings) (root : Path) : Except GlobError Session :=
  (Policy.ofSettings settings).map fun policy =>
    let service := (firstCommands settings root).foldl Service.send (.ofPublisher (.new settings))
    ⟨root, policy, service, true⟩

def serve (s : Session) (e : Service.Event) : Session × Console :=
  let (service, out) := s.service.step e
  ({ s with service }, .ofOutput out)

def hangUp (s : Session) : Session := { s with service := s.service.close, listening := false }

def hear (s : Session) (line : String) : Session × Console :=
  if !s.listening then (s, .empty)
  else
    match respond s.policy s.root line with
    | .ignore => (s, .empty)
    | .complain e => (s, ⟨"", "error: " ++ e.message ++ "\n"⟩)
    | .command c => ({ s with service := s.service.send c }, .empty)
    | .finish => (s.hangUp, .empty)

def start (s : Session) (m : Execution.Machine) : Session × Console := s.serve (.next m)

def feed (s : Session) (m : Execution.Machine) (line : String) : Session × Console :=
  let (s, front) := s.hear line
  let (s, back) := s.serve (.next m)
  (s, front ++ back)

def finish (s : Session) (m : Execution.Machine) : Session × Console := s.hangUp.serve (.next m)

def await (s : Session) : Session × Console :=
  let (service, out) := s.service.await
  ({ s with service }, .ofOutput out)

end Session

end Watch

end BuildWatch
