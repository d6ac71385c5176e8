import BuildWatch.Proofs.Diagnostic
import BuildWatch.Proofs.Publisher

namespace BuildWatch

/-- A turn in the life of a publisher: it takes a trigger, is told to stop, takes the result of the
run in flight, or is shut down. -/
inductive Turn where
  | took (m : Execution.Machine) (t : Trigger)
  | stopped
  | finished
  | shut

/-- What happened to a publisher, the newest turn first. -/
abbrev History := List Turn

structure Flight where
  run : AwaitedRun
  behaviour : Execution.Behaviour

/-- The records of a run that succeeded, and all of the run that counts for what is shown. -/
structure Showing where
  root : Path
  document : Option Path
  records : List Record

namespace Showing

def ofRun (run : AwaitedRun) (records : List Record) : Showing := ⟨run.root, run.document, records⟩

def files (s : Settings) (isPrimary : SourceTest) (shown : Showing) : DiagnosticMap :=
  (DiagnosticMap.ofRecords isPrimary shown.records).retain
    (s.scope.accepts shown.root shown.document)

def summary (s : Settings) (isPrimary : SourceTest) (shown : Showing) : Summary :=
  ⟨shown.records.length, (shown.files s isPrimary).count, (shown.files s isPrimary).size⟩

end Showing

namespace History

variable (s : Settings)

def document : History → Option Path
  | [] => none
  | .took _ t :: h => t.document.or (document h)
  | _ :: h => document h

def issued : History → Nat
  | [] => 0
  | .took m t :: h =>
    match s.attempt m t with
    | .ok _ => issued h + 1
    | .error _ => issued h
  | _ :: h => issued h

/-- A run is in flight only right after the turn that started it. -/
def inFlight : History → Option Flight
  | .took m t :: h =>
    match s.attempt m t with
    | .ok b => some ⟨⟨⟨issued s h + 1⟩, t.root, document (.took m t :: h)⟩, b⟩
    | .error _ => none
  | _ => none

section InFlight

variable {s : Settings} {h : History} {m : Execution.Machine} {t : Trigger}

@[simp] theorem inFlight_stopped : inFlight s (.stopped :: h) = none := rfl

@[simp] theorem inFlight_finished : inFlight s (.finished :: h) = none := rfl

theorem inFlight_took_of_error {e : StartError} (ha : s.attempt m t = .error e) :
    inFlight s (.took m t :: h) = none := by
  rw [inFlight, ha]

theorem inFlight_took_of_ok {b : Execution.Behaviour} (ha : s.attempt m t = .ok b) :
    inFlight s (.took m t :: h) =
      some ⟨⟨⟨issued s h + 1⟩, t.root, document (.took m t :: h)⟩, b⟩ := by
  rw [inFlight, ha]

end InFlight

def success? : Turn → History → Option Showing
  | .finished, h =>
    match inFlight s h with
    | none => none
    | some f =>
      match f.behaviour.result? s.limit with
      | some (.ok records) => some (.ofRun f.run records)
      | _ => none
  | _, _ => none

def drops : Turn → History → Bool
  | .finished, _ => false
  | _, h => (inFlight s h).isSome

/-- The newest success, unless a later turn dropped a run in flight. -/
def standing : History → Option Showing
  | [] => none
  | turn :: h =>
    match success? s turn h with
    | some shown => some shown
    | none => if drops s turn h then none else standing h

end History

namespace Publisher

def turn (p : Publisher) : Turn → Publisher × Output
  | .took m t =>
    let (p, superseded) := p.supersede
    match p.startRun m t with
    | (p, .ok _) => (p, superseded)
    | (p, .error report) => (p, superseded ++ .report report)
  | .stopped => p.cancel
  | .finished =>
    match p.awaited with
    | none => (p, .none)
    | some run => p.collect run.id
  | .shut =>
    let (p, out) := p.cancel
    (p, ⟨out.edits, []⟩)

def Flies (p : Publisher) : Option Flight → Prop
  | none => p.Idle
  | some f => p.Awaits f.run f.behaviour

theorem inStep_of_flies {p : Publisher} {f : Option Flight} (h : p.Flies f) : p.InStep := by
  cases f with
  | none => exact .inl h
  | some f => exact .inr ⟨f.run, f.behaviour, h⟩

theorem awaited_of_flies {p : Publisher} {f : Option Flight} (h : p.Flies f) :
    p.awaited = f.map Flight.run := by
  cases f with
  | none => exact h.awaited
  | some f => exact h.awaited

/-- A publisher of some settings is where its history has brought it. -/
structure Follows (s : Settings) (isPrimary : SourceTest) (p : Publisher) (h : History) :
    Prop where
  settings : p.settings = s
  source : p.isPrimary = isPrimary
  limit : p.runs.limit = s.limit
  sound : p.runs.Sound
  document : p.lastDocument = h.document
  issued : p.runs.issued = h.issued s
  flies : p.Flies (h.inFlight s)

def Ready (p : Publisher) : Prop :=
  ∃ run result, p.awaited = some run ∧ p.runs.result? run.id = some result

variable {s : Settings} {isPrimary : SourceTest} {p : Publisher} {h : History}

theorem follows_new (s : Settings) (isPrimary : SourceTest) :
    ((new s).withSourceTest isPrimary).Follows s isPrimary [] :=
  ⟨rfl, rfl, rfl, Runs.sound_new s.limit, rfl, rfl, ⟨rfl, rfl, rfl⟩⟩

theorem follows_settle (hp : p.Follows s isPrimary h) (id : RunId) :
    (p.settle id).Follows s isPrimary h := by
  refine ⟨hp.settings, hp.source, hp.limit, Runs.sound_settle hp.sound id, hp.document,
    hp.issued, ?_⟩
  have hf := hp.flies
  cases hh : h.inFlight s with
  | none =>
    rw [hh] at hf
    exact idle_settle hf id
  | some f =>
    rw [hh] at hf
    exact awaits_settle hf id

theorem turn_took_of_error (hp : p.InStep) {m : Execution.Machine} {t : Trigger} {e : StartError}
    (ha : p.settings.attempt m t = .error e) :
    p.turn (.took m t) =
      ({ (p.dropRun .superseded).1 with lastDocument := t.document.or p.lastDocument },
        (p.dropRun .superseded).2 ++ .report ⟨none, .failed (.start e)⟩) := by
  have ha' : (p.dropRun .superseded).1.settings.attempt m t = .error e := by
    rwa [dropRun_settings]
  simp only [turn, supersede, startRun_of_error (idle_dropRun hp _) ha', dropRun_lastDocument]

theorem turn_took_of_ok (hp : p.InStep) {m : Execution.Machine} {t : Trigger}
    {b : Execution.Behaviour} (ha : p.settings.attempt m t = .ok b) :
    p.turn (.took m t) =
      ((p.dropRun .superseded).1.begun t b, (p.dropRun .superseded).2) := by
  have ha' : (p.dropRun .superseded).1.settings.attempt m t = .ok b := by
    rwa [dropRun_settings]
  simp only [turn, supersede, startRun_of_ok (idle_dropRun hp _) ha']

theorem turn_finished {run : AwaitedRun} {b : Execution.Behaviour} (hp : p.Awaits run b)
    {result : Except Failure (List Record)} (hr : p.runs.result? run.id = some result) :
    p.turn .finished = p.conclude run.id result := by
  simp only [turn, hp.awaited, collect, hr]

theorem follows_dropRun (hp : p.Follows s isPrimary h) (o : Outcome) {τ : Turn}
    (hd : History.document (τ :: h) = h.document) (hi : History.issued s (τ :: h) = h.issued s)
    (hf : History.inFlight s (τ :: h) = none) :
    (p.dropRun o).1.Follows s isPrimary (τ :: h) where
  settings := by rw [dropRun_settings, hp.settings]
  source := by rw [dropRun_isPrimary, hp.source]
  limit := by rw [dropRun_limit, hp.limit]
  sound := sound_dropRun hp.sound o
  document := by rw [dropRun_lastDocument, hp.document, hd]
  issued := by rw [dropRun_issued, hp.issued, hi]
  flies := by
    rw [hf]
    exact idle_dropRun (inStep_of_flies hp.flies) o

theorem follows_took (hp : p.Follows s isPrimary h) (m : Execution.Machine) (t : Trigger) :
    (p.turn (.took m t)).1.Follows s isPrimary (.took m t :: h) := by
  have hstep := inStep_of_flies hp.flies
  have hd : t.document.or p.lastDocument = History.document (.took m t :: h) := by
    rw [hp.document]
    rfl
  have hq : (p.dropRun .superseded).1.Follows s isPrimary (.stopped :: h) :=
    follows_dropRun hp .superseded rfl rfl rfl
  cases ha : s.attempt m t with
  | error e =>
    rw [turn_took_of_error hstep (by rwa [hp.settings])]
    refine ⟨hq.settings, hq.source, hq.limit, hq.sound, hd, ?_, ?_⟩
    · rw [History.issued, ha]
      exact hq.issued
    · rw [History.inFlight_took_of_error ha]
      exact ⟨hq.flies.phase, hq.flies.awaited, hq.flies.current⟩
  | ok b =>
    have hn : (p.dropRun .superseded).1.runs.issued = h.issued s := hq.issued
    have hl : (p.dropRun .superseded).1.lastDocument = p.lastDocument := dropRun_lastDocument p _
    rw [turn_took_of_ok hstep (by rwa [hp.settings])]
    refine ⟨hq.settings, hq.source, hq.limit, Runs.sound_begun hq.sound b, ?_, ?_, ?_⟩
    · rw [← hd, ← hl]
      rfl
    · rw [History.issued, ha]
      exact congrArg (· + 1) hn
    · have hb := awaits_begun (p.dropRun .superseded).1 t b
      rw [hn, hl, hd] at hb
      rw [History.inFlight_took_of_ok ha]
      exact hb

theorem flight_of_ready (hp : p.Follows s isPrimary h) (hr : p.Ready) :
    ∃ f result, h.inFlight s = some f ∧ p.Awaits f.run f.behaviour ∧
      p.runs.result? f.run.id = some result ∧ f.behaviour.result? s.limit = some result := by
  obtain ⟨run, result, ha, hr⟩ := hr
  have hf := hp.flies
  cases hh : h.inFlight s with
  | none =>
    rw [hh] at hf
    cases ha.symm.trans hf.awaited
  | some f =>
    rw [hh] at hf
    obtain rfl : f.run = run := Option.some.inj (hf.awaited.symm.trans ha)
    have hb := result?_of_awaits hf hp.sound hr
    rw [hp.limit] at hb
    exact ⟨f, result, rfl, hf, hr, hb⟩

theorem follows_finished (hp : p.Follows s isPrimary h) (hr : p.Ready) :
    (p.turn .finished).1.Follows s isPrimary (.finished :: h) := by
  obtain ⟨f, result, -, hf, hr, -⟩ := flight_of_ready hp hr
  have hi := idle_released hf
  have hl : (p.runs.forget f.run.id).limit = p.runs.limit := by
    unfold Runs.forget
    split <;> rfl
  have hn : (p.runs.forget f.run.id).issued = p.runs.issued := by
    unfold Runs.forget
    split <;> rfl
  rw [turn_finished hf hr]
  cases result with
  | error e =>
    rw [conclude_of_error hf]
    exact ⟨hp.settings, hp.source, hl.trans hp.limit, Runs.sound_forget hp.sound _, hp.document,
      hn.trans hp.issued, hi⟩
  | ok records =>
    rw [conclude_of_ok hf]
    exact ⟨hp.settings, hp.source, hl.trans hp.limit, Runs.sound_forget hp.sound _, hp.document,
      hn.trans hp.issued, ⟨hi.phase, hi.awaited, hi.current⟩⟩

theorem follows_turn (hp : p.Follows s isPrimary h) (τ : Turn) (hr : τ = .finished → p.Ready) :
    (p.turn τ).1.Follows s isPrimary (τ :: h) := by
  cases τ with
  | took m t => exact follows_took hp m t
  | stopped => exact follows_dropRun hp .cancelled rfl rfl rfl
  | finished => exact follows_finished hp (hr rfl)
  | shut => exact follows_dropRun hp .cancelled rfl rfl rfl

end Publisher

end BuildWatch
