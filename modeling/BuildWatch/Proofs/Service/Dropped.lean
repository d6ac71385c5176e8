import BuildWatch.Proofs.Sample
import BuildWatch.Proofs.Service

namespace BuildWatch

namespace History

variable {s : Settings}

theorem number_of_inFlight {τ : Turn} {h : History} {f : Flight}
    (hf : inFlight s (τ :: h) = some f) :
    f.run.id.number = issued s h + 1 ∧ issued s (τ :: h) = issued s h + 1 := by
  cases τ with
  | stopped | finished | shut => cases hf
  | took m t =>
    cases ha : s.attempt m t with
    | error e => cases (inFlight_took_of_error ha).symm.trans hf
    | ok b =>
      obtain rfl := Option.some.inj ((inFlight_took_of_ok ha).symm.trans hf)
      exact ⟨rfl, by rw [issued, ha]⟩

theorem number_eq_issued {h : History} {f : Flight} (hf : h.inFlight s = some f) :
    f.run.id.number = h.issued s := by
  cases h with
  | nil => cases hf
  | cons τ h =>
    obtain ⟨hn, hi⟩ := number_of_inFlight hf
    exact hn.trans hi.symm

theorem issued_le_cons (τ : Turn) (h : History) : h.issued s ≤ issued s (τ :: h) := by
  cases τ with
  | stopped | finished | shut => exact Nat.le_refl _
  | took m t =>
    rw [issued]
    split
    · exact Nat.le_succ _
    · exact Nat.le_refl _

theorem issued_le_append (g h : History) : h.issued s ≤ issued s (g ++ h) := by
  induction g with
  | nil => exact Nat.le_refl _
  | cons τ g ih => exact Nat.le_trans ih (issued_le_cons τ (g ++ h))

theorem issued_lt_of_inFlight_append (g : History) {τ : Turn} {h : History} {f : Flight}
    (hf : inFlight s (g ++ τ :: h) = some f) : h.issued s < f.run.id.number := by
  cases g with
  | nil =>
    rw [(number_of_inFlight hf).1]
    exact Nat.lt_succ_self _
  | cons σ g =>
    have hle : h.issued s ≤ issued s (g ++ τ :: h) :=
      Nat.le_trans (issued_le_cons τ h) (issued_le_append g (τ :: h))
    rw [(number_of_inFlight hf).1]
    exact Nat.lt_succ_of_le hle

theorem files_of_drops (isPrimary : SourceTest) {τ : Turn} {h : History} (hτ : τ ≠ .finished)
    (hf : (h.inFlight s).isSome) : files s isPrimary (τ :: h) = [] := by
  cases τ with
  | finished => exact absurd rfl hτ
  | took | stopped | shut => simp only [files, standing, success?, drops, hf, if_true]

end History

structure Output.Silent (out : Output) : Prop where
  erases : ∀ edit ∈ out.edits, ∃ file, edit = .erase file
  fails : ∀ r ∈ out.reports, ∀ summary, r.outcome ≠ .succeeded summary

namespace Output

theorem silent_none : Output.none.Silent := ⟨nofun, nofun⟩

theorem silent_failed (run : Option RunId) (e : Failure) :
    (Output.report ⟨run, .failed e⟩).Silent := by
  refine ⟨nofun, fun r hr summary hs => ?_⟩
  rw [List.mem_singleton.mp hr] at hs
  cases hs

theorem silent_append {a b : Output} (ha : a.Silent) (hb : b.Silent) : (a ++ b).Silent := by
  constructor
  · intro edit he
    exact (List.mem_append.mp he).elim (ha.erases edit) (hb.erases edit)
  · intro r hr
    exact (List.mem_append.mp hr).elim (ha.fails r) (hb.fails r)

end Output

namespace Publisher

variable {p : Publisher}

theorem silent_dropRun (p : Publisher) {o : Outcome} (ho : ∀ summary, o ≠ .succeeded summary) :
    (p.dropRun o).2.Silent := by
  unfold dropRun
  split
  · exact Output.silent_none
  · refine ⟨fun edit he => ?_, fun r hr => ?_⟩
    · obtain ⟨file, -, rfl⟩ := List.mem_map.mp he
      exact ⟨file, rfl⟩
    · rw [List.mem_singleton.mp hr]
      exact ho

theorem output_took {s : Settings} {isPrimary : SourceTest} {h : History}
    (hp : p.Follows s isPrimary h) (m : Execution.Machine) (t : Trigger) :
    (p.turn (.took m t)).2.edits = (p.dropRun .superseded).2.edits ∧
      (p.turn (.took m t)).2.Silent := by
  have hstep := inStep_of_flies hp.flies
  have hsilent := p.silent_dropRun (o := .superseded) nofun
  cases ha : s.attempt m t with
  | error e =>
    rw [turn_took_of_error hstep (by rwa [hp.settings])]
    exact ⟨List.append_nil _, Output.silent_append hsilent (Output.silent_failed _ _)⟩
  | ok b =>
    rw [turn_took_of_ok hstep (by rwa [hp.settings])]
    exact ⟨rfl, hsilent⟩

theorem turn_took_fst (p : Publisher) (m : Execution.Machine) (t : Trigger) :
    (p.turn (.took m t)).1 = ((p.dropRun .superseded).1.startRun m t).1 := by
  unfold turn supersede
  generalize p.dropRun .superseded = d
  obtain ⟨q, out⟩ := d
  dsimp only
  cases q.startRun m t with
  | mk r begun => cases begun <;> rfl

end Publisher

namespace Service

variable {s : Settings} {isPrimary : SourceTest} {v : Service} {h : History}

structure Holds (v : Service) (run : AwaitedRun) (records : List Record) : Prop where
  pending : v.pending = some run.id
  awaited : v.publisher.awaited = some run
  result : v.publisher.runs.result? run.id = some (.ok records)

structure Shows (s : Settings) (isPrimary : SourceTest) (out : Output) (run : AwaitedRun)
    (records : List Record) : Prop where
  edits : ∀ file ds, .set file ds ∈ out.edits →
    (file, ds) ∈ ((Showing.ofRun run records).files s isPrimary).toList
  reports : out.reports =
    [⟨some run.id, .succeeded ((Showing.ofRun run records).summary s isPrimary)⟩]

theorem shows_of_holds (hv : v.Follows s isPrimary h) (hend : v.hasEnded = false)
    {run : AwaitedRun} {records : List Record} (hr : v.Holds run records) :
    Shows s isPrimary (v.step .collect).2 run records := by
  obtain ⟨b, hb⟩ :=
    Publisher.awaits_of_awaited (Publisher.inStep_of_flies hv.publisher.flies) hr.awaited
  have hout : (v.step .collect).2 = (v.publisher.conclude run.id (.ok records)).2 := by
    simp only [step, collect, hend, hr.pending, hr.result, Bool.false_eq_true, if_false]
  have hfiles : (v.publisher.released run.id).visible records run =
      (Showing.ofRun run records).files s isPrimary := by
    simp only [Publisher.visible, Publisher.released, hv.publisher.settings, hv.publisher.source]
    rfl
  rw [hout, Publisher.conclude_of_ok hb]
  refine ⟨fun file ds he => ?_, ?_⟩
  · rcases List.mem_append.mp he with he | he
    · obtain ⟨stale, -, he⟩ := List.mem_map.mp he
      cases he
    · obtain ⟨entry, hentry, he⟩ := List.mem_map.mp he
      cases he
      exact hfiles ▸ hentry
  · simp only [Publisher.publish, hfiles]
    rfl

/-- A step shows something, or tells of a success, only when it takes the records of a run. -/
theorem output_step (hv : v.Follows s isPrimary h) (e : Event) :
    (v.step e).2.Silent ∨
      ∃ run records, v.Holds run records ∧ v.turn? e = some .finished ∧
        Shows s isPrimary (v.step e).2 run records := by
  cases ht : v.turn? e with
  | none =>
    rw [(step_of_none ht).1]
    exact .inl Output.silent_none
  | some τ =>
    obtain ⟨hend, hb⟩ := brings_of_turn? ht
    have hout := (step_of_brings hv hend hb).2.1
    cases hb with
    | trigger m t rest hq =>
      rw [hout]
      exact .inl (Publisher.output_took hv.publisher m t).2
    | cancel m rest hq =>
      rw [hout]
      exact .inl (v.publisher.silent_dropRun nofun)
    | shut m hq hopen =>
      rw [hout]
      exact .inl ⟨(v.publisher.silent_dropRun (o := .cancelled) nofun).erases, nofun⟩
    | collect id result hid hr =>
      obtain ⟨run, hrun, rfl⟩ := Option.map_eq_some_iff.mp (hv.pending id hid)
      cases result with
      | ok records =>
        have hh : v.Holds run records := ⟨hid, hrun, hr⟩
        exact .inr ⟨run, records, hh, rfl, shows_of_holds hv hend hh⟩
      | error failure =>
        left
        simp only [step, collect, hend, hid, hr, Bool.false_eq_true, if_false, Publisher.conclude,
          hrun]
        exact Output.silent_failed _ failure

theorem flight_of_awaited (hv : v.Follows s isPrimary h) {run : AwaitedRun}
    (ha : v.publisher.awaited = some run) : ∃ f, h.inFlight s = some f ∧ f.run = run := by
  rw [Publisher.awaited_of_flies hv.publisher.flies] at ha
  exact Option.map_eq_some_iff.mp ha

theorem standing_of_holds (hv : v.Follows s isPrimary h) {run : AwaitedRun}
    {records : List Record} (hr : v.Holds run records) :
    History.standing s (.finished :: h) = some (.ofRun run records) := by
  obtain ⟨f, result, hh, hf, hres, hb⟩ :=
    Publisher.flight_of_ready hv.publisher ⟨run, _, hr.awaited, hr.result⟩
  obtain rfl : f.run = run := Option.some.inj (hf.awaited.symm.trans hr.awaited)
  obtain rfl := Option.some.inj (hres.symm.trans hr.result)
  simp only [History.standing, History.success?, hh, hb]

theorem shown_step (hv : v.Follows s isPrimary h) {store : Store}
    (hd : store.Displays s isPrimary v.publisher h) (e : Event) :
    (∀ file ds, .set file ds ∈ (v.step e).2.edits → ∃ run records, v.Holds run records ∧
      (file, ds) ∈ ((Showing.ofRun run records).files s isPrimary).toList) ∧
      ∀ r ∈ (v.step e).2.reports, ∀ summary, r.outcome = .succeeded summary →
        ∃ run records, r.run = some run.id ∧ v.Holds run records ∧
          (store.applyAll (v.step e).2.edits).files.contents =
            ((Showing.ofRun run records).files s isPrimary).files.contents := by
  rcases output_step hv e with hs | ⟨run, records, hr, hτ, hshow⟩
  · refine ⟨fun file ds he => ?_, fun r hr summary ho => absurd ho (hs.fails r hr summary)⟩
    obtain ⟨_, he⟩ := hs.erases _ he
    cases he
  · refine ⟨fun file ds he => ⟨run, records, hr, hshow.edits file ds he⟩, fun r hmem _ _ => ?_⟩
    have hd' := displays_step hv hd e
    rw [hτ] at hd'
    rw [hshow.reports] at hmem
    refine ⟨run, records, by rw [List.mem_singleton.mp hmem], hr, hd'.contents.trans ?_⟩
    simp only [History.files, Option.toList_some, List.singleton_append, standing_of_holds hv hr]

theorem step_of_awaited (hv : v.Follows s isPrimary h) {run : AwaitedRun}
    (ha : v.publisher.awaited = some run) {m : Execution.Machine}
    (ht : (v.turn? (.next m)).isSome) :
    (v.step (.next m)).2.edits = v.publisher.published.map .erase ∧
      ∃ o, let p := (v.publisher.dropRun o).1
        p.Idle ∧ p.published = [] ∧ (v.step (.next m)).1.publisher =
          match v.queue with
          | .trigger t :: _ => (p.startRun m t).1
          | _ => p := by
  obtain ⟨τ, ht⟩ := Option.isSome_iff_exists.mp ht
  obtain ⟨hend, hb⟩ := brings_of_turn? ht
  obtain ⟨hpub, hout, -⟩ := step_of_brings hv hend hb
  have hstep := Publisher.inStep_of_flies hv.publisher.flies
  have hdrop : ∀ o, (v.publisher.dropRun o).2.edits = v.publisher.published.map .erase ∧
      (v.publisher.dropRun o).1.Idle ∧ (v.publisher.dropRun o).1.published = [] := by
    intro o
    refine ⟨?_, Publisher.idle_dropRun hstep o, ?_⟩
    · rw [Publisher.dropRun, ha]
    · rw [Publisher.dropRun, ha]
  cases hb with
  | trigger m t rest hq =>
    obtain ⟨he, hi, hn⟩ := hdrop .superseded
    rw [hpub, hout, (Publisher.output_took hv.publisher m t).1, hq, Publisher.turn_took_fst]
    exact ⟨he, .superseded, hi, hn, rfl⟩
  | cancel m rest hq =>
    obtain ⟨he, hi, hn⟩ := hdrop .cancelled
    rw [hpub, hout, hq]
    exact ⟨he, .cancelled, hi, hn, rfl⟩
  | shut m hq hopen =>
    obtain ⟨he, hi, hn⟩ := hdrop .cancelled
    rw [hpub, hout, hq]
    exact ⟨he, .cancelled, hi, hn, rfl⟩

/-- Once a service takes a command, or shuts down, while a run is in flight, nothing of that run is
ever shown. What is published is erased in that step, and all that is shown later are the files of
newer runs, just these after each success. -/
theorem shown_after_drop (s : Settings) (isPrimary : SourceTest) (before : List Event)
    (m : Execution.Machine) (after : List Event) (e : Event) (a : AwaitedRun)
    (ha : ((fresh s isPrimary).run before).1.publisher.awaited = some a)
    (ht : (((fresh s isPrimary).run before).1.turn? (.next m)).isSome) :
    let v := (fresh s isPrimary).run before
    let w := v.1.step (.next m)
    let x := w.1.run after
    let y := x.1.step e
    let cleared := Store.empty.applyAll (v.2.edits ++ w.2.edits)
    let store := cleared.applyAll (x.2.edits ++ y.2.edits)
    (w.2.edits = v.1.publisher.published.map .erase ∧ cleared.files.entries = [] ∧
      ∃ o, let p := (v.1.publisher.dropRun o).1
        p.Idle ∧ p.published = [] ∧ w.1.publisher =
          match v.1.queue with
          | .trigger t :: _ => (p.startRun m t).1
          | _ => p) ∧
      (∀ file ds, .set file ds ∈ y.2.edits →
        ∃ b records, a.id.number < b.id.number ∧ x.1.Holds b records ∧
          (file, ds) ∈ ((Showing.ofRun b records).files s isPrimary).toList) ∧
      ∀ r ∈ y.2.reports, ∀ summary, r.outcome = .succeeded summary →
        ∃ b records, r.run = some b.id ∧ a.id.number < b.id.number ∧ x.1.Holds b records ∧
          store.files.contents = ((Showing.ofRun b records).files s isPrimary).files.contents := by
  intro v w x y cleared store
  have h0 := follows_fresh s isPrimary
  have hv := follows_run h0 before
  have hdv := displays_run h0 (Publisher.displays_new s isPrimary) before
  obtain ⟨f, hf, rfl⟩ := flight_of_awaited hv ha
  obtain ⟨he, hdrop⟩ := step_of_awaited hv ha ht
  obtain ⟨τ, hτ⟩ := Option.isSome_iff_exists.mp ht
  have hne : τ ≠ .finished := by
    rintro rfl
    cases (brings_of_turn? hτ).2
  generalize ((fresh s isPrimary).turns before).reverse ++ [] = h at hv hdv hf
  have hw := follows_step hv (.next m)
  have hdw := displays_step hv hdv (.next m)
  rw [hτ] at hw hdw
  rw [← Store.applyAll_append] at hdw
  have hx : x.1.Follows s isPrimary ((w.1.turns after).reverse ++ τ :: h) := follows_run hw after
  have hdx := displays_run hw hdw after
  have hnew : ∀ b records, x.1.Holds b records → f.run.id.number < b.id.number := by
    intro b records hb
    obtain ⟨f', hf', rfl⟩ := flight_of_awaited hx hb.awaited
    rw [History.number_eq_issued hf]
    exact History.issued_lt_of_inFlight_append _ hf'
  obtain ⟨hedits, hreports⟩ := shown_step hx hdx e
  refine ⟨⟨he, ?_, hdrop⟩, fun file ds hs => ?_, fun r hr summary hs => ?_⟩
  · exact FileMap.entries_eq_nil_of_contents
      (hdw.contents.trans (History.files_of_drops isPrimary hne (Option.isSome_of_eq_some hf)))
  · obtain ⟨b, records, hb, hmem⟩ := hedits file ds hs
    exact ⟨b, records, hnew b records hb, hb, hmem⟩
  · obtain ⟨b, records, hrun, hb, hc⟩ := hreports r hr summary hs
    rw [← Store.applyAll_append] at hc
    exact ⟨b, records, hrun, hnew b records hb, hb, hc⟩

theorem shown_after_drop_of_newer :
    let v := (fresh Sample.settings fun _ => true).run
      [.send (.trigger Sample.trigger), .next (Sample.machine Sample.failing), .settle ⟨1⟩,
        .send (.trigger Sample.trigger)]
    let x := (v.1.step (.next (Sample.machine Sample.failing))).1.run [.settle ⟨2⟩]
    (v.1.publisher.runs.result? ⟨1⟩).isSome ∧ (x.1.step .collect).2.edits ≠ [] ∧
      ∀ r ∈ (x.1.step .collect).2.reports, ∀ summary, r.outcome = .succeeded summary →
        ∃ b, r.run = some b ∧ 1 < b.number := by
  obtain ⟨-, -, h⟩ := shown_after_drop Sample.settings (fun _ => true)
    [.send (.trigger Sample.trigger), .next (Sample.machine Sample.failing), .settle ⟨1⟩,
      .send (.trigger Sample.trigger)]
    (Sample.machine Sample.failing) [.settle ⟨2⟩] .collect ⟨⟨1⟩, ⟨"/w"⟩, none⟩ rfl rfl
  refine ⟨rfl, List.cons_ne_nil _ _, fun r hr summary hs => ?_⟩
  obtain ⟨b, _, hrun, hlt, -⟩ := h r hr summary hs
  exact ⟨b.id, hrun, hlt⟩

end Service

end BuildWatch
