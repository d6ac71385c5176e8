import BuildWatch.Proofs.Standing

namespace BuildWatch

/-- What a host does with a publisher that it drives by itself: it waits for a run, leaves one in
flight, or cancels. In between, the process of any run may go on. -/
inductive Operation where
  | run (m : Execution.Machine) (t : Trigger)
  | launch (m : Execution.Machine) (t : Trigger)
  | cancel
  | settle (id : RunId)

def Settings.completes (s : Settings) (m : Execution.Machine) (t : Trigger) : Bool :=
  match s.attempt m t with
  | .ok b => (b.result? s.limit).isSome
  | .error _ => false

namespace Operation

/-- The turns of an operation, the newest first. A run that never ends stays in flight. -/
def turns (s : Settings) : Operation → History
  | .run m t => if s.completes m t then [.finished, .took m t] else [.took m t]
  | .launch m t => [.took m t]
  | .cancel => [.stopped]
  | .settle _ => []

/-- The history of some operations, the oldest of which comes first in the list. -/
def history (s : Settings) (ops : List Operation) : History :=
  ops.foldl (fun h op => op.turns s ++ h) []

end Operation

namespace Publisher

def operate (p : Publisher) : Operation → Publisher × Output
  | .run m t => p.run m t
  | .launch m t => p.launch m t
  | .cancel => p.cancel
  | .settle id => (p.settle id, .none)

def drive (p : Publisher) : List Operation → Publisher × Output
  | [] => (p, .none)
  | op :: ops =>
    let (p, out) := p.operate op
    let (p, rest) := p.drive ops
    (p, out ++ rest)

variable {s : Settings} {isPrimary : SourceTest} {p : Publisher} {h : History} {store : Store}

theorem drive_append (p : Publisher) (ops more : List Operation) :
    p.drive (ops ++ more) =
      (((p.drive ops).1.drive more).1, (p.drive ops).2 ++ ((p.drive ops).1.drive more).2) := by
  induction ops generalizing p with
  | nil => rfl
  | cons op ops ih => simp only [List.cons_append, drive, ih, Output.append_assoc]

theorem launch_eq (p : Publisher) (m : Execution.Machine) (t : Trigger) :
    (p.launch m t).1 = (p.turn (.took m t)).1 ∧
      (p.launch m t).2.edits = (p.turn (.took m t)).2.edits := by
  unfold launch replace turn
  generalize p.supersede = d
  obtain ⟨q, out⟩ := d
  dsimp only
  cases q.startRun m t with
  | mk r begun =>
    cases begun with
    | error report => exact ⟨rfl, (List.append_nil _).symm⟩
    | ok id => exact ⟨rfl, rfl⟩

theorem run_of_error (hp : p.Follows s isPrimary h) {m : Execution.Machine} {t : Trigger}
    {e : StartError} (ha : s.attempt m t = .error e) :
    (p.run m t).1 = (p.turn (.took m t)).1 ∧
      (p.run m t).2.edits = (p.turn (.took m t)).2.edits := by
  have hq := idle_dropRun (inStep_of_flies hp.flies) .superseded
  have ha' : (p.dropRun .superseded).1.settings.attempt m t = .error e := by
    rwa [dropRun_settings, hp.settings]
  rw [turn_took_of_error (inStep_of_flies hp.flies) (by rwa [hp.settings])]
  simp [run, replace, supersede, startRun_of_error hq ha', dropRun_lastDocument]

theorem run_of_ok (hp : p.Follows s isPrimary h) {m : Execution.Machine} {t : Trigger}
    {b : Execution.Behaviour} (ha : s.attempt m t = .ok b) :
    p.run m t =
      ((((p.turn (.took m t)).1.settle ⟨h.issued s + 1⟩).collect ⟨h.issued s + 1⟩).1,
        ⟨(p.turn (.took m t)).2.edits, []⟩ ++
          (((p.turn (.took m t)).1.settle ⟨h.issued s + 1⟩).collect ⟨h.issued s + 1⟩).2) := by
  have hq := idle_dropRun (inStep_of_flies hp.flies) .superseded
  have ha' : (p.dropRun .superseded).1.settings.attempt m t = .ok b := by
    rwa [dropRun_settings, hp.settings]
  have hi : (p.dropRun .superseded).1.runs.issued = h.issued s := by
    rw [dropRun_issued, hp.issued]
  rw [turn_took_of_ok (inStep_of_flies hp.flies) (by rwa [hp.settings])]
  simp only [run, replace, supersede, startRun_of_ok hq ha', hi]

theorem awaits_started (hp : p.Follows s isPrimary h) {m : Execution.Machine} {t : Trigger}
    {b : Execution.Behaviour} (ha : s.attempt m t = .ok b) :
    (p.turn (.took m t)).1.Awaits
      ⟨⟨h.issued s + 1⟩, t.root, History.document (.took m t :: h)⟩ b := by
  have hf := (follows_took hp m t).flies
  rwa [History.inFlight_took_of_ok ha] at hf

theorem result?_started (hp : p.Follows s isPrimary h) {m : Execution.Machine} {t : Trigger}
    {b : Execution.Behaviour} (ha : s.attempt m t = .ok b) :
    ((p.turn (.took m t)).1.settle ⟨h.issued s + 1⟩).runs.result? ⟨h.issued s + 1⟩ =
      b.result? s.limit := by
  have hq := follows_took hp m t
  rw [← hq.limit]
  exact result?_settle (awaits_started hp ha) hq.sound

theorem tracks_collect (ht : Tracks s isPrimary store p h) {run : AwaitedRun}
    {b : Execution.Behaviour} (hf : p.Awaits run b) :
    Tracks s isPrimary (store.applyAll ((p.settle run.id).collect run.id).2.edits)
      ((p.settle run.id).collect run.id).1
      (if (b.result? s.limit).isSome then .finished :: h else h) := by
  have hs := tracks_settle ht run.id
  have hr := result?_settle hf ht.follows.sound
  rw [ht.follows.limit] at hr
  cases hb : b.result? s.limit with
  | none =>
    rw [hb] at hr
    simp only [collect, hr]
    exact hs
  | some result =>
    rw [hb] at hr
    have hc : (p.settle run.id).collect run.id = (p.settle run.id).turn .finished := by
      rw [turn_finished (awaits_settle hf run.id) hr]
      simp only [collect, hr]
    rw [hc]
    exact tracks_turn hs .finished fun _ => ⟨run, result, hf.awaited, hr⟩

theorem tracks_operate (ht : Tracks s isPrimary store p h) (op : Operation) :
    Tracks s isPrimary (store.applyAll (p.operate op).2.edits) (p.operate op).1
      (op.turns s ++ h) := by
  cases op with
  | settle id => exact tracks_settle ht id
  | cancel => exact tracks_turn ht .stopped nofun
  | launch m t =>
    obtain ⟨hl, he⟩ := launch_eq p m t
    rw [operate, hl, he]
    exact tracks_turn ht (.took m t) nofun
  | run m t =>
    have hq := tracks_turn ht (.took m t) nofun
    cases ha : s.attempt m t with
    | error e =>
      obtain ⟨hl, he⟩ := run_of_error ht.follows ha
      rw [operate, hl, he]
      simpa only [Operation.turns, Settings.completes, ha, Bool.false_eq_true, if_false] using! hq
    | ok b =>
      have hc := tracks_collect hq (awaits_started ht.follows ha)
      rw [← Store.applyAll_append] at hc
      have hh : Operation.turns s (.run m t) ++ h =
          if (b.result? s.limit).isSome then .finished :: .took m t :: h else .took m t :: h := by
        simp only [Operation.turns, Settings.completes, ha]
        split <;> rfl
      rw [operate, run_of_ok ht.follows ha, hh]
      exact hc

theorem tracks_drive (ht : Tracks s isPrimary store p h) (ops : List Operation) :
    Tracks s isPrimary (store.applyAll (p.drive ops).2.edits) (p.drive ops).1
      (ops.foldl (fun h op => op.turns s ++ h) h) := by
  induction ops generalizing store p h with
  | nil => exact ht
  | cons op ops ih =>
    have hi := ih (tracks_operate ht op)
    rwa [← Store.applyAll_append] at hi

/-- After any operations the files on show are those of the newest success, unless a run in flight
was dropped since, and the publisher knows just these. A file is known by what its path denotes. -/
theorem contents_drive (s : Settings) (isPrimary : SourceTest) (ops : List Operation) :
    let driven := ((new s).withSourceTest isPrimary).drive ops
    let store := Store.empty.applyAll driven.2.edits
    store.files.contents = (Operation.history s ops).files s isPrimary ∧
      driven.1.published.map Path.components = store.files.keys.map Path.components := by
  have ht := tracks_drive ⟨follows_new s isPrimary, displays_new s isPrimary⟩ ops
  exact ⟨ht.displays.contents, ht.displays.published.symm⟩

end Publisher

end BuildWatch
