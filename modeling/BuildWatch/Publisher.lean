import BuildWatch.Aggregation
import BuildWatch.Diagnostic.Edit
import BuildWatch.Report
import BuildWatch.Trigger

namespace BuildWatch

namespace Scope

/-- Whether a file is published for a run on the workspace `root` and, if one is known, on a
document. Without a document its scope is that of the workspace. -/
def accepts (scope : Scope) (root : Path) (document : Option Path) (file : Path) : Bool :=
  match scope, document with
  | .all, _ => true
  | .document, some d => file.same d
  | _, _ => file.isUnder root

end Scope

inductive Phase where
  | idle
  | starting
  | awaitingOutput (id : RunId)
  deriving DecidableEq, Repr

structure AwaitedRun where
  id : RunId
  root : Path
  document : Option Path
  deriving Repr

/-- Turns triggers into runs, one at a time, and their records into published diagnostics. -/
structure Publisher where
  settings : Settings
  isPrimary : SourceTest
  runs : Runs
  phase : Phase
  awaited : Option AwaitedRun
  lastDocument : Option Path
  published : List Path

structure Output where
  edits : List Edit
  reports : List Report

namespace Output

def none : Output := ⟨[], []⟩

def report (r : Report) : Output := ⟨[], [r]⟩

def append (a b : Output) : Output := ⟨a.edits ++ b.edits, a.reports ++ b.reports⟩

instance : Append Output := ⟨append⟩

end Output

namespace Publisher

def new (settings : Settings) : Publisher where
  settings := settings
  isPrimary := .ofExtensions settings.primaryExtensions
  runs := .new settings.limit
  phase := .idle
  awaited := none
  lastDocument := none
  published := []

def withSourceTest (p : Publisher) (isPrimary : SourceTest) : Publisher := { p with isPrimary }

/-- Stop the run in flight, if there is one, and clear what was published. It ends as `outcome`. -/
def dropRun (p : Publisher) (outcome : Outcome) : Publisher × Output :=
  match p.awaited with
  | none => (p, .none)
  | some run =>
    ({ p with
        runs := p.runs.cancelCurrent
        phase := .idle
        awaited := none
        published := [] },
      ⟨p.published.map .erase, [⟨some run.id, outcome⟩]⟩)

def cancel (p : Publisher) : Publisher × Output := p.dropRun .cancelled

def supersede (p : Publisher) : Publisher × Output := p.dropRun .superseded

def notStarted (p : Publisher) (e : StartError) : Publisher × Except Report RunId :=
  ({ p with phase := .idle }, .error ⟨none, .failed (.start e)⟩)

/-- Start a run when none is in flight. The document of the trigger is remembered first, and a
trigger without one stands for the document before it. -/
def startRun (p : Publisher) (m : Execution.Machine) (t : Trigger) :
    Publisher × Except Report RunId :=
  let document := t.document.or p.lastDocument
  let p := { p with phase := .starting, lastDocument := document }
  match p.settings.tool? with
  | none => p.notStarted (.notFound none)
  | some tool =>
    match p.runs.start m tool t.root with
    | (runs, .error e) => { p with runs }.notStarted e
    | (runs, .ok id) =>
      ({ p with
          runs
          phase := .awaitingOutput id
          awaited := some ⟨id, t.root, document⟩ }, .ok id)

def visible (p : Publisher) (records : List Record) (run : AwaitedRun) : DiagnosticMap :=
  (DiagnosticMap.ofRecords p.isPrimary records).retain
    (p.settings.scope.accepts run.root run.document)

/-- Replace what was published. Files that have no diagnostics now are cleared first. -/
def publish (p : Publisher) (records : List Record) (run : AwaitedRun) :
    Publisher × List Edit × Summary :=
  let set := p.visible records run
  let stale := p.published.filter fun file => !set.contains file
  ({ p with published := set.paths },
    stale.map .erase ++ set.toList.map fun (file, diagnostics) => .set file diagnostics,
    ⟨records.length, set.count, set.size⟩)

/-- Take the result of a run. One that is not in flight any more changes nothing. -/
def conclude (p : Publisher) (id : RunId) (result : Except Failure (List Record)) :
    Publisher × Output :=
  match p.awaited with
  | none => (p, .report ⟨some id, .superseded⟩)
  | some run =>
    if run.id = id then
      let p := { p with runs := p.runs.forget id, phase := .idle, awaited := none }
      match result with
      | .error failure => (p, .report ⟨some id, .failed failure⟩)
      | .ok records =>
        let (p, edits, summary) := p.publish records run
        (p, ⟨edits, [⟨some id, .succeeded summary⟩]⟩)
    else (p, .report ⟨some id, .superseded⟩)

def settle (p : Publisher) (id : RunId) : Publisher :=
  { p with runs := p.runs.settle id }

def collect (p : Publisher) (id : RunId) : Publisher × Output :=
  match p.runs.result? id with
  | some result => p.conclude id result
  | none => (p, .none)

def replace (p : Publisher) (m : Execution.Machine) (t : Trigger) :
    Publisher × List Edit × Except Report RunId :=
  let (p, dropped) := p.supersede
  let (p, begun) := p.startRun m t
  (p, dropped.edits, begun)

/-- Begin a run and leave it in flight. There is a report only if it does not start. -/
def launch (p : Publisher) (m : Execution.Machine) (t : Trigger) : Publisher × Output :=
  match p.replace m t with
  | (p, edits, .error report) => (p, ⟨edits, [report]⟩)
  | (p, edits, .ok _) => (p, ⟨edits, []⟩)

/-- A full cycle for a trigger. There is no report if the run never ends. -/
def run (p : Publisher) (m : Execution.Machine) (t : Trigger) : Publisher × Output :=
  match p.replace m t with
  | (p, edits, .error report) => (p, ⟨edits, [report]⟩)
  | (p, edits, .ok id) =>
    let (p, out) := (p.settle id).collect id
    (p, ⟨edits, []⟩ ++ out)

end Publisher

end BuildWatch
