import BuildWatch.Proofs.Runs
import BuildWatch.Publisher

namespace BuildWatch

/-- Whether a file is in scope does not depend on how its path is spelled. -/
theorem Scope.accepts_congr {scope : Scope} {root : Path} {document : Option Path} {p q : Path}
    (h : p.components = q.components) :
    scope.accepts root document p = scope.accepts root document q := by
  have hunder : p.isUnder root = q.isUnder root := by
    simp only [Path.isUnder, Path.resolved, h]
  cases scope <;> cases document <;> simp only [accepts, hunder, Path.same, h]

def Settings.attempt (s : Settings) (m : Execution.Machine) (t : Trigger) :
    Except StartError Execution.Behaviour :=
  match s.tool? with
  | none => .error (.notFound none)
  | some tool => m.start tool t.root

namespace Output

@[simp] theorem edits_append (a b : Output) : (a ++ b).edits = a.edits ++ b.edits := rfl

@[simp] theorem reports_append (a b : Output) : (a ++ b).reports = a.reports ++ b.reports := rfl

@[simp] theorem reports_none : Output.none.reports = [] := rfl

@[simp] theorem edits_report (r : Report) : (Output.report r).edits = [] := rfl

@[simp] theorem reports_report (r : Report) : (Output.report r).reports = [r] := rfl

@[simp] theorem none_append (a : Output) : Output.none ++ a = a := rfl

@[simp] theorem append_none (a : Output) : a ++ Output.none = a := by
  change Output.mk (a.edits ++ []) (a.reports ++ []) = a
  rw [List.append_nil, List.append_nil]

theorem append_assoc (a b c : Output) : a ++ b ++ c = a ++ (b ++ c) := by
  change Output.mk (a.edits ++ b.edits ++ c.edits) (a.reports ++ b.reports ++ c.reports) = _
  rw [List.append_assoc, List.append_assoc]
  rfl

end Output

namespace Publisher

structure Idle (p : Publisher) : Prop where
  phase : p.phase = .idle
  awaited : p.awaited = none
  current : p.runs.current = none

/-- A run of a process is in flight: the phase, the run that is awaited and the current run of the
tool are the same one, and it is not cancelled. -/
structure Awaits (p : Publisher) (run : AwaitedRun) (b : Execution.Behaviour) : Prop where
  phase : p.phase = .awaitingOutput run.id
  awaited : p.awaited = some run
  current : p.runs.current = some run.id
  known : ∃ slot, p.runs.run? run.id = some ⟨run.id, b, false, slot⟩

def InStep (p : Publisher) : Prop := p.Idle ∨ ∃ run b, p.Awaits run b

theorem awaits_of_awaited {p : Publisher} (h : p.InStep) {run : AwaitedRun}
    (ha : p.awaited = some run) : ∃ b, p.Awaits run b := by
  rcases h with hi | ⟨run', b, hw⟩
  · cases ha.symm.trans hi.awaited
  · obtain rfl := Option.some.inj (ha.symm.trans hw.awaited)
    exact ⟨b, hw⟩

theorem dropRun_of_idle {p : Publisher} (h : p.Idle) (o : Outcome) : p.dropRun o = (p, .none) := by
  rw [dropRun, h.awaited]

theorem dropRun_of_awaits {p : Publisher} {run : AwaitedRun} {b : Execution.Behaviour}
    (h : p.Awaits run b) (o : Outcome) :
    p.dropRun o =
      ({ p with runs := p.runs.cancelCurrent, phase := .idle, awaited := none, published := [] },
        ⟨p.published.map .erase, [⟨some run.id, o⟩]⟩) := by
  rw [dropRun, h.awaited]

theorem idle_dropRun {p : Publisher} (h : p.InStep) (o : Outcome) : (p.dropRun o).1.Idle := by
  rcases h with h | ⟨run, b, h⟩
  · rw [dropRun_of_idle h]
    exact h
  · rw [dropRun_of_awaits h]
    exact ⟨rfl, rfl, p.runs.cancelCurrent_current⟩

section Kept

variable (p : Publisher) (o : Outcome)

theorem dropRun_settings : (p.dropRun o).1.settings = p.settings := by
  unfold dropRun
  split <;> rfl

theorem dropRun_isPrimary : (p.dropRun o).1.isPrimary = p.isPrimary := by
  unfold dropRun
  split <;> rfl

theorem dropRun_lastDocument : (p.dropRun o).1.lastDocument = p.lastDocument := by
  unfold dropRun
  split <;> rfl

theorem dropRun_issued : (p.dropRun o).1.runs.issued = p.runs.issued := by
  unfold dropRun
  split
  · rfl
  · exact p.runs.cancelCurrent_issued

theorem dropRun_limit : (p.dropRun o).1.runs.limit = p.runs.limit := by
  unfold dropRun
  split
  · rfl
  · exact p.runs.cancelCurrent_limit

end Kept

theorem sound_dropRun {p : Publisher} (h : p.runs.Sound) (o : Outcome) :
    (p.dropRun o).1.runs.Sound := by
  unfold dropRun
  split
  · exact h
  · exact Runs.sound_cancelCurrent h

theorem startRun_of_error {p : Publisher} (h : p.Idle) {m : Execution.Machine} {t : Trigger}
    {e : StartError} (ha : p.settings.attempt m t = .error e) :
    p.startRun m t =
      ({ p with lastDocument := t.document.or p.lastDocument },
        .error ⟨none, .failed (.start e)⟩) := by
  obtain ⟨settings, isPrimary, runs, phase, awaited, lastDocument, published⟩ := p
  obtain ⟨rfl, rfl, hc⟩ := h
  dsimp only [Settings.attempt] at ha hc
  cases ht : settings.tool? with
  | none =>
    simp only [ht] at ha
    cases ha
    simp only [startRun, ht, notStarted]
  | some tool =>
    simp only [ht] at ha
    simp only [startRun, ht, Runs.start, Runs.cancelCurrent_of_none hc, ha, notStarted]

def begun (p : Publisher) (t : Trigger) (b : Execution.Behaviour) : Publisher :=
  let id : RunId := ⟨p.runs.issued + 1⟩
  { p with
    runs := p.runs.begun b
    phase := .awaitingOutput id
    awaited := some ⟨id, t.root, t.document.or p.lastDocument⟩
    lastDocument := t.document.or p.lastDocument }

theorem startRun_of_ok {p : Publisher} (h : p.Idle) {m : Execution.Machine} {t : Trigger}
    {b : Execution.Behaviour} (ha : p.settings.attempt m t = .ok b) :
    p.startRun m t = (p.begun t b, .ok ⟨p.runs.issued + 1⟩) := by
  unfold Settings.attempt at ha
  cases ht : p.settings.tool? with
  | none =>
    rw [ht] at ha
    cases ha
  | some tool =>
    simp only [ht] at ha
    simp only [startRun, ht, Runs.start, Runs.cancelCurrent_of_none h.current, ha]
    rfl

theorem awaits_begun (p : Publisher) (t : Trigger) (b : Execution.Behaviour) :
    (p.begun t b).Awaits ⟨⟨p.runs.issued + 1⟩, t.root, t.document.or p.lastDocument⟩ b :=
  ⟨rfl, rfl, rfl, .waiting, by simp [begun, Runs.begun, Runs.run?]⟩

def released (p : Publisher) (id : RunId) : Publisher :=
  { p with runs := p.runs.forget id, phase := .idle, awaited := none }

theorem idle_released {p : Publisher} {run : AwaitedRun} {b : Execution.Behaviour}
    (h : p.Awaits run b) : (p.released run.id).Idle := by
  refine ⟨rfl, rfl, ?_⟩
  change (p.runs.forget run.id).current = none
  rw [Runs.forget, if_pos h.current]

theorem conclude_of_error {p : Publisher} {run : AwaitedRun} {b : Execution.Behaviour}
    (h : p.Awaits run b) (e : Failure) :
    p.conclude run.id (.error e) =
      (p.released run.id, .report ⟨some run.id, .failed e⟩) := by
  simp only [conclude, h.awaited, if_true, released]

theorem conclude_of_ok {p : Publisher} {run : AwaitedRun} {b : Execution.Behaviour}
    (h : p.Awaits run b) (records : List Record) :
    p.conclude run.id (.ok records) =
      (((p.released run.id).publish records run).1,
        ⟨((p.released run.id).publish records run).2.1,
          [⟨some run.id, .succeeded ((p.released run.id).publish records run).2.2⟩]⟩) := by
  simp only [conclude, h.awaited, if_true, released]

theorem idle_settle {p : Publisher} (h : p.Idle) (id : RunId) : (p.settle id).Idle :=
  ⟨h.phase, h.awaited, h.current⟩

theorem awaits_settle {p : Publisher} {run : AwaitedRun} {b : Execution.Behaviour}
    (h : p.Awaits run b) (id : RunId) : (p.settle id).Awaits run b := by
  refine ⟨h.phase, h.awaited, h.current, ?_⟩
  obtain ⟨slot, hk⟩ := h.known
  obtain ⟨slot', hs⟩ := Run.settle_eq p.runs.limit ⟨run.id, b, false, slot⟩
  change ∃ slot, (p.runs.settle id).run? run.id = _
  rw [Runs.run?_settle, hk, Option.map_some]
  by_cases hid : run.id = id
  · exact ⟨slot', by rw [if_pos hid, hs]⟩
  · exact ⟨slot, by rw [if_neg hid]⟩

theorem result?_of_awaits {p : Publisher} {run : AwaitedRun} {b : Execution.Behaviour}
    (h : p.Awaits run b) (hs : p.runs.Sound) {result : Except Failure (List Record)}
    (hr : p.runs.result? run.id = some result) : b.result? p.runs.limit = some result := by
  obtain ⟨slot, hk⟩ := h.known
  rw [Runs.result?, hk, Option.bind_some] at hr
  exact Run.result?_of_honest (hs.honest _ (List.mem_of_find?_eq_some hk)) rfl hr

theorem result?_settle {p : Publisher} {run : AwaitedRun} {b : Execution.Behaviour}
    (h : p.Awaits run b) (hs : p.runs.Sound) :
    (p.settle run.id).runs.result? run.id = b.result? p.runs.limit := by
  obtain ⟨slot, hk⟩ := h.known
  change (p.runs.settle run.id).result? run.id = _
  rw [Runs.result?, Runs.run?_settle, hk, Option.map_some, if_pos rfl, Option.bind_some]
  exact Run.result?_settle (hs.honest _ (List.mem_of_find?_eq_some hk)) rfl

end Publisher

end BuildWatch
