import BuildWatch.Proofs.Outcome
import BuildWatch.Proofs.Service.InStep

namespace BuildWatch

inductive Settings.Fails (s : Settings) (m : Execution.Machine) (t : Trigger) : Failure → Prop where
  | start {e : StartError} : s.attempt m t = .error e → Fails s m t (.start e)
  | result {b : Execution.Behaviour} {e : Failure} : s.attempt m t = .ok b →
    b.result? s.limit = some (.error e) → Fails s m t e

namespace Publisher

/-- What a failed run leaves of `p` is `q`: nothing is in flight any more, and what was published is
still there, unless all of it was cleared with a run that was in flight before. -/
structure Spares (p q : Publisher) (edits : List Edit) : Prop where
  idle : q.Idle
  kept : p.awaited = none → edits = [] ∧ q.published = p.published
  cleared : p.awaited ≠ none → edits = p.published.map .erase ∧ q.published = []

variable {s : Settings} {isPrimary : SourceTest} {p q : Publisher} {h : History}
  {m : Execution.Machine} {t : Trigger} {e : Failure} {id? : Option RunId}

theorem spares_of_dropRun (hp : p.InStep) (o : Outcome) (hq : q.Idle)
    (hpub : q.published = (p.dropRun o).1.published) : p.Spares q (p.dropRun o).2.edits := by
  rcases hp with hi | ⟨run, b, ha⟩
  · rw [dropRun_of_idle hi] at hpub ⊢
    exact ⟨hq, fun _ => ⟨rfl, hpub⟩, fun hne => absurd hi.awaited hne⟩
  · rw [dropRun_of_awaits ha] at hpub ⊢
    refine ⟨hq, fun hn => ?_, fun _ => ⟨rfl, hpub⟩⟩
    cases ha.awaited.symm.trans hn

theorem outcome_of_mem_dropRun {o : Outcome} {r : Report} (hr : r ∈ (p.dropRun o).2.reports) :
    r.outcome = o := by
  rw [dropRun] at hr
  split at hr
  · cases hr
  · rw [List.mem_singleton.mp hr]

theorem run_of_start_error (hp : p.Follows s isPrimary h) {c : StartError}
    (ha : s.attempt m t = .error c) :
    p.run m t =
      ({ (p.dropRun .superseded).1 with lastDocument := t.document.or p.lastDocument },
        ⟨(p.dropRun .superseded).2.edits, [⟨none, .failed (.start c)⟩]⟩) := by
  have hq := idle_dropRun (inStep_of_flies hp.flies) .superseded
  have ha' : (p.dropRun .superseded).1.settings.attempt m t = .error c := by
    rwa [dropRun_settings, hp.settings]
  simp only [run, replace, supersede, startRun_of_error hq ha', dropRun_lastDocument]

theorem run_of_result_error (hp : p.Follows s isPrimary h) {b : Execution.Behaviour}
    (ha : s.attempt m t = .ok b) (hb : b.result? s.limit = some (.error e)) :
    ∃ q id, p.run m t = (q, ⟨(p.dropRun .superseded).2.edits, [⟨some id, .failed e⟩]⟩) ∧
      q.Idle ∧ q.published = (p.dropRun .superseded).1.published := by
  have hw := awaits_settle (awaits_started hp ha) ⟨h.issued s + 1⟩
  have hc : ((p.turn (.took m t)).1.settle ⟨h.issued s + 1⟩).collect ⟨h.issued s + 1⟩ =
      (((p.turn (.took m t)).1.settle ⟨h.issued s + 1⟩).released ⟨h.issued s + 1⟩,
        .report ⟨some ⟨h.issued s + 1⟩, .failed e⟩) := by
    rw [collect, result?_started hp ha, hb]
    exact conclude_of_error hw e
  have hrun := run_of_ok hp ha
  rw [hc, turn_took_of_ok (inStep_of_flies hp.flies) (by rwa [hp.settings])] at hrun
  have hout : (⟨(p.dropRun .superseded).2.edits, []⟩ : Output) ++
      .report ⟨some ⟨h.issued s + 1⟩, .failed e⟩ =
      ⟨(p.dropRun .superseded).2.edits, [⟨some ⟨h.issued s + 1⟩, .failed e⟩]⟩ :=
    congrArg (Output.mk · _) (List.append_nil _)
  rw [turn_took_of_ok (inStep_of_flies hp.flies) (by rwa [hp.settings])] at hw
  rw [hout] at hrun
  exact ⟨_, _, hrun, idle_released hw, rfl⟩

theorem run_of_fails (hp : p.Follows s isPrimary h) (hf : s.Fails m t e) :
    ∃ id?, (p.run m t).2.reports = [⟨id?, .failed e⟩] ∧
      p.Spares (p.run m t).1 (p.run m t).2.edits ∧ (id? = none ↔ ∃ c, e = .start c) ∧
      (id? = none → (p.run m t).1.runs.issued = p.runs.issued) := by
  have hstep := inStep_of_flies hp.flies
  cases hf with
  | start ha =>
    have hi := idle_dropRun hstep .superseded
    rw [run_of_start_error hp ha]
    refine ⟨none, rfl, ?_, iff_of_true rfl ⟨_, rfl⟩, fun _ => dropRun_issued p .superseded⟩
    exact spares_of_dropRun hstep .superseded ⟨hi.phase, hi.awaited, hi.current⟩ rfl
  | result ha hb =>
    obtain ⟨q, id, hrun, hi, hpub⟩ := run_of_result_error hp ha hb
    rw [hrun]
    refine ⟨some id, rfl, spares_of_dropRun hstep .superseded hi hpub, iff_of_false nofun ?_, nofun⟩
    rintro ⟨c, rfl⟩
    exact (Execution.Behaviour.failure_of_result? hb).2 c rfl

theorem fails_of_reported (hp : p.Follows s isPrimary h)
    (hr : ⟨id?, .failed e⟩ ∈ (p.run m t).2.reports) : s.Fails m t e := by
  cases ha : s.attempt m t with
  | error c =>
    rw [run_of_start_error hp ha] at hr
    cases List.mem_singleton.mp hr
    exact .start ha
  | ok b =>
    cases hb : b.result? s.limit with
    | none =>
      rw [run_of_ok hp ha, collect, result?_started hp ha, hb] at hr
      cases hr
    | some result =>
      rw [reports_of_run hp ha hb] at hr
      cases result with
      | ok records => cases List.mem_singleton.mp hr
      | error e' =>
        cases List.mem_singleton.mp hr
        exact .result ha hb

theorem spares_of_told (hp : p.Follows s isPrimary h) {run : AwaitedRun}
    (ha : (p.launch m t).1.awaited = some run) :
    p.Spares ((p.launch m t).1.conclude run.id (.error e)).1
      ((p.launch m t).2.edits ++ ((p.launch m t).1.conclude run.id (.error e)).2.edits) := by
  have hstep := inStep_of_flies hp.flies
  obtain ⟨hl, hedits⟩ := p.launch_eq m t
  rw [hl] at ha
  rw [hl, hedits]
  cases hatt : s.attempt m t with
  | error c =>
    have hf := (follows_took hp m t).flies
    rw [History.inFlight_took_of_error hatt] at hf
    cases ha.symm.trans hf.awaited
  | ok b =>
    have hw := awaits_started hp hatt
    obtain rfl := Option.some.inj (hw.awaited.symm.trans ha)
    rw [conclude_of_error hw, Output.edits_report, List.append_nil]
    rw [turn_took_of_ok hstep (by rwa [hp.settings])] at hw ⊢
    exact spares_of_dropRun hstep .superseded (idle_released hw) rfl

/-- A turn that reports a failure took a trigger that started no run, or the result of a run. -/
theorem turn_of_failed (hp : p.Follows s isPrimary h) {τ : Turn} (hready : τ = .finished → p.Ready)
    (hr : ⟨id?, .failed e⟩ ∈ (p.turn τ).2.reports) :
    (id? = none → p.Spares (p.turn τ).1 (p.turn τ).2.edits ∧
      (p.turn τ).1.runs.issued = p.runs.issued) ∧
    (id? ≠ none → (p.turn τ).1.Idle ∧ (p.turn τ).2.edits = [] ∧
      (p.turn τ).1.published = p.published) := by
  have hstep := inStep_of_flies hp.flies
  cases τ with
  | stopped => cases outcome_of_mem_dropRun hr
  | shut => cases hr
  | took m t =>
    cases ha : s.attempt m t with
    | ok b =>
      rw [turn_took_of_ok hstep (by rwa [hp.settings])] at hr
      cases outcome_of_mem_dropRun hr
    | error c =>
      have hi := idle_dropRun hstep .superseded
      rw [turn_took_of_error hstep (by rwa [hp.settings])] at hr ⊢
      rcases List.mem_append.mp hr with hr | hr
      · cases outcome_of_mem_dropRun hr
      · cases List.mem_singleton.mp hr
        refine ⟨fun _ => ⟨?_, dropRun_issued p .superseded⟩, fun hne => absurd rfl hne⟩
        rw [Output.edits_append, Output.edits_report, List.append_nil]
        exact spares_of_dropRun hstep .superseded ⟨hi.phase, hi.awaited, hi.current⟩ rfl
  | finished =>
    obtain ⟨f, result, -, hf, hres, -⟩ := flight_of_ready hp (hready rfl)
    rw [turn_finished hf hres] at hr ⊢
    cases result with
    | ok records =>
      rw [conclude_of_ok hf] at hr
      cases List.mem_singleton.mp hr
    | error c =>
      rw [conclude_of_error hf] at hr ⊢
      cases List.mem_singleton.mp hr
      exact ⟨nofun, fun _ => ⟨idle_released hf, rfl, rfl⟩⟩

theorem step_of_failed {v : Service} (hv : v.Follows s isPrimary h) {event : Service.Event}
    (hr : ⟨id?, .failed e⟩ ∈ (v.step event).2.reports) :
    (id? = none → v.publisher.Spares (v.step event).1.publisher (v.step event).2.edits ∧
      (v.step event).1.publisher.runs.issued = v.publisher.runs.issued) ∧
    (id? ≠ none → (v.step event).1.publisher.Idle ∧ (v.step event).2.edits = [] ∧
      (v.step event).1.publisher.published = v.publisher.published) := by
  cases hτ : v.turn? event with
  | none =>
    rw [(Service.step_of_none hτ).1] at hr
    cases hr
  | some τ =>
    obtain ⟨hend, hb⟩ := Service.brings_of_turn? hτ
    obtain ⟨hpub, hout, -⟩ := Service.step_of_brings hv hend hb
    rw [hout] at hr ⊢
    rw [hpub]
    exact turn_of_failed hv.publisher (Service.ready_of_brings hv hb) hr

/-- A run fails exactly if it does not start or its process comes to a failure. Then nothing is in
flight, and what was published stays without an edit, unless a run was in flight when the failing
one was asked for: then each published file is erased once, and none is published any more. A run
that does not start takes no number. It is the same for a run that was left in flight and is told of
any failure whatever, and in a service, where the failure may be that of a run started before. -/
theorem spares_of_failed (hp : Reachable s isPrimary p) (m : Execution.Machine) (t : Trigger) :
    (p.published.map Path.components).Nodup ∧
    (∀ e, s.Fails m t e ↔ ∃ id?, ⟨id?, .failed e⟩ ∈ (p.run m t).2.reports) ∧
    (∀ id? e, ⟨id?, .failed e⟩ ∈ (p.run m t).2.reports →
      p.Spares (p.run m t).1 (p.run m t).2.edits ∧ (id? = none ↔ ∃ c, e = .start c) ∧
      (id? = none → (p.run m t).1.runs.issued = p.runs.issued)) ∧
    (∀ run e, (p.launch m t).1.awaited = some run →
      let told := (p.launch m t).1.conclude run.id (.error e)
      p.Spares told.1 ((p.launch m t).2.edits ++ told.2.edits)) ∧
    ∀ es event id? e,
      let v := ((Service.ofPublisher p).run es).1
      let after := (v.step event).1.publisher
      let out := (v.step event).2
      ⟨id?, .failed e⟩ ∈ out.reports →
        (id? = none → v.publisher.Spares after out.edits ∧
          after.runs.issued = v.publisher.runs.issued) ∧
        (id? ≠ none → after.Idle ∧ out.edits = [] ∧ after.published = v.publisher.published) := by
  obtain ⟨store, h, ht⟩ := tracks_of_reachable hp
  refine ⟨Path.nodup_of_ascending (ascending_published ht.displays), fun e => ⟨fun hf => ?_, ?_⟩,
    fun id? e hr => ?_, fun run e ha => ?_, fun es event id? e => ?_⟩
  · obtain ⟨id?, hr, -⟩ := run_of_fails ht.follows hf
    rw [hr]
    exact ⟨id?, List.mem_singleton_self _⟩
  · rintro ⟨id?, hr⟩
    exact fails_of_reported ht.follows hr
  · obtain ⟨id', hr', hrest⟩ := run_of_fails ht.follows (fails_of_reported ht.follows hr)
    rw [hr'] at hr
    cases List.mem_singleton.mp hr
    exact hrest
  · exact spares_of_told ht.follows ha
  · exact step_of_failed (Service.follows_run (Service.follows_ofPublisher ht.follows) es)

theorem spares_of_failed_gone :
    let m := Sample.machine Sample.failing
    let bare := { m with files := ⟨[]⟩ }
    let s := { Sample.settings with scope := .all }
    let p := (((new s).withSourceTest fun _ => true).operate (.run m Sample.trigger)).1
    let l := (p.operate (.launch (Sample.machine Sample.hanging) Sample.trigger)).1
    (p.run bare Sample.trigger).2.edits = [] ∧
      (p.run bare Sample.trigger).1.published = [⟨"A"⟩] ∧
      (l.run bare Sample.trigger).2.edits = [.erase ⟨"A"⟩] ∧
      (l.run bare Sample.trigger).1.published = [] := by
  intro m bare s p l
  have hnew : Reachable s (fun _ => true) _ := .new
  have hp : Reachable s (fun _ => true) p := hnew.operate _
  have hl : Reachable s (fun _ => true) l := hp.operate _
  have hgone : s.Fails bare Sample.trigger (.start (.notFound (some "stack"))) := .start rfl
  obtain ⟨-, hreport, hspares, -, -⟩ := spares_of_failed hp bare Sample.trigger
  obtain ⟨-, hreport', hspares', -, -⟩ := spares_of_failed hl bare Sample.trigger
  obtain ⟨id?, hr⟩ := (hreport _).mp hgone
  obtain ⟨id', hr'⟩ := (hreport' _).mp hgone
  obtain ⟨hedits, hpub⟩ := (hspares _ _ hr).1.kept rfl
  obtain ⟨hedits', hpub'⟩ := (hspares' _ _ hr').1.cleared nofun
  have hp' : p.published = [⟨"A"⟩] := rfl
  have hl' : l.published = [⟨"A"⟩] := rfl
  rw [hp'] at hpub
  rw [hl'] at hedits'
  exact ⟨hedits, hpub, hedits', hpub'⟩

end Publisher

end BuildWatch
