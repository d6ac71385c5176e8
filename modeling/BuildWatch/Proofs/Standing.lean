import BuildWatch.Proofs.History

namespace BuildWatch

/-- What is on show for a history: the files of the newest success that still stands. -/
def History.files (s : Settings) (isPrimary : SourceTest) (h : History) :
    List (List Component × List Diagnostic) :=
  match h.standing s with
  | some shown => (shown.files s isPrimary).files.contents
  | none => []

/-- A store that got all edits of a publisher shows what its history says, and the publisher knows
the files that are in it. -/
structure Store.Displays (s : Settings) (isPrimary : SourceTest) (store : Store) (p : Publisher)
    (h : History) : Prop where
  sorted : store.files.Sorted
  published : store.files.keys.map Path.components = p.published.map Path.components
  contents : store.files.contents = h.files s isPrimary

namespace Publisher

variable {s : Settings} {isPrimary : SourceTest} {p : Publisher} {h : History} {store : Store}

theorem sound_files (s : Settings) (isPrimary : SourceTest) (shown : Showing) :
    (shown.files s isPrimary).Sound :=
  DiagnosticMap.sound_retain (DiagnosticMap.sound_ofRecords isPrimary shown.records) _

theorem ascending_published (hd : store.Displays s isPrimary p h) :
    p.published.Pairwise fun a b => compare a b = .lt := by
  have hkeys : (store.files.keys.map Path.components).Pairwise fun a b => compare a b = .lt := by
    rw [FileMap.keys, List.map_map, List.pairwise_map]
    exact hd.sorted
  rw [hd.published, List.pairwise_map] at hkeys
  exact hkeys

theorem displays_new (s : Settings) (isPrimary : SourceTest) :
    Store.empty.Displays s isPrimary ((new s).withSourceTest isPrimary) [] :=
  ⟨FileMap.sorted_empty, rfl, rfl⟩

theorem displays_dropRun (hp : p.Follows s isPrimary h) (hd : store.Displays s isPrimary p h)
    (o : Outcome) {τ : Turn} (hs : History.success? s τ h = none)
    (hr : History.drops s τ h = (h.inFlight s).isSome) :
    (store.applyAll (p.dropRun o).2.edits).Displays s isPrimary (p.dropRun o).1 (τ :: h) := by
  have hf := hp.flies
  have hst : History.standing s (τ :: h) = if (h.inFlight s).isSome then none else h.standing s := by
    simp only [History.standing, hs, hr]
  cases hh : h.inFlight s with
  | none =>
    rw [hh] at hf hst
    have hk : History.files s isPrimary (τ :: h) = h.files s isPrimary := by
      rw [History.files, hst]
      rfl
    rw [dropRun_of_idle hf]
    exact ⟨hd.sorted, hd.published, hd.contents.trans hk.symm⟩
  | some f =>
    rw [hh] at hf hst
    have hk : History.files s isPrimary (τ :: h) = [] := by
      rw [History.files, hst]
      rfl
    have hc := Store.contents_erase_all hd.sorted hd.published
    rw [dropRun_of_awaits hf]
    refine ⟨Store.sorted_applyAll hd.sorted _, ?_, hc.trans hk.symm⟩
    rw [FileMap.keys_components, hc]
    rfl

theorem displays_took (hp : p.Follows s isPrimary h) (hd : store.Displays s isPrimary p h)
    (m : Execution.Machine) (t : Trigger) :
    (store.applyAll (p.turn (.took m t)).2.edits).Displays s isPrimary (p.turn (.took m t)).1
      (.took m t :: h) := by
  have hstep := inStep_of_flies hp.flies
  have hq : (store.applyAll (p.dropRun .superseded).2.edits).Displays s isPrimary
      (p.dropRun .superseded).1 (.took m t :: h) := displays_dropRun hp hd .superseded rfl rfl
  cases ha : s.attempt m t with
  | error e =>
    rw [turn_took_of_error hstep (by rwa [hp.settings])]
    have he : ((p.dropRun .superseded).2 ++ .report ⟨none, .failed (.start e)⟩).edits =
        (p.dropRun .superseded).2.edits := List.append_nil _
    rw [he]
    exact ⟨hq.sorted, hq.published, hq.contents⟩
  | ok b =>
    rw [turn_took_of_ok hstep (by rwa [hp.settings])]
    exact ⟨hq.sorted, hq.published, hq.contents⟩

theorem displays_publish (hp : p.Follows s isPrimary h) (hd : store.Displays s isPrimary p h)
    {f : Flight} (hf : p.Awaits f.run f.behaviour) {records : List Record} {g : History}
    (hg : History.standing s g = some (.ofRun f.run records)) :
    (store.applyAll (p.conclude f.run.id (.ok records)).2.edits).Displays s isPrimary
      (p.conclude f.run.id (.ok records)).1 g := by
  have hm : (Showing.ofRun f.run records).files s isPrimary =
      (p.released f.run.id).visible records f.run := by
    rw [Showing.files, visible, released, hp.settings, hp.source]
    rfl
  have hc := Store.contents_replace hd.sorted hd.published
    (sound_files s isPrimary (.ofRun f.run records))
  rw [conclude_of_ok hf]
  rw [hm] at hc
  refine ⟨Store.sorted_applyAll hd.sorted _, ?_, ?_⟩
  · rw [FileMap.keys_components]
    exact (congrArg (List.map (·.1)) hc).trans (FileMap.keys_components _).symm
  · rw [History.files, hg]
    exact hc.trans (congrArg (fun m => m.files.contents) hm.symm)

theorem displays_finished (hp : p.Follows s isPrimary h) (hd : store.Displays s isPrimary p h)
    (hr : p.Ready) :
    (store.applyAll (p.turn .finished).2.edits).Displays s isPrimary (p.turn .finished).1
      (.finished :: h) := by
  obtain ⟨f, result, hh, hf, hr, hb⟩ := flight_of_ready hp hr
  rw [turn_finished hf hr]
  cases result with
  | error e =>
    have hk : History.files s isPrimary (.finished :: h) = h.files s isPrimary := by
      simp only [History.files, History.standing, History.success?, hh, hb, History.drops]
      rfl
    rw [conclude_of_error hf]
    exact ⟨hd.sorted, hd.published, hd.contents.trans hk.symm⟩
  | ok records =>
    refine displays_publish hp hd hf ?_
    simp only [History.standing, History.success?, hh, hb]

theorem displays_turn (hp : p.Follows s isPrimary h) (hd : store.Displays s isPrimary p h)
    (τ : Turn) (hr : τ = .finished → p.Ready) :
    (store.applyAll (p.turn τ).2.edits).Displays s isPrimary (p.turn τ).1 (τ :: h) := by
  cases τ with
  | took m t => exact displays_took hp hd m t
  | stopped => exact displays_dropRun hp hd .cancelled rfl rfl
  | finished => exact displays_finished hp hd (hr rfl)
  | shut => exact displays_dropRun hp hd .cancelled rfl rfl

structure Tracks (s : Settings) (isPrimary : SourceTest) (store : Store) (p : Publisher)
    (h : History) : Prop where
  follows : p.Follows s isPrimary h
  displays : store.Displays s isPrimary p h

theorem tracks_turn (ht : Tracks s isPrimary store p h) (τ : Turn) (hr : τ = .finished → p.Ready) :
    Tracks s isPrimary (store.applyAll (p.turn τ).2.edits) (p.turn τ).1 (τ :: h) :=
  ⟨follows_turn ht.follows τ hr, displays_turn ht.follows ht.displays τ hr⟩

theorem tracks_settle (ht : Tracks s isPrimary store p h) (id : RunId) :
    Tracks s isPrimary store (p.settle id) h :=
  ⟨follows_settle ht.follows id, ht.displays.sorted, ht.displays.published, ht.displays.contents⟩

end Publisher

end BuildWatch
