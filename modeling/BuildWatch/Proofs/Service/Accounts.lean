import BuildWatch.Proofs.Service.InStep

namespace BuildWatch

def Outcome.ofResult (s : Settings) (isPrimary : SourceTest) (run : AwaitedRun) :
    Except Failure (List Record) → Outcome
  | .error failure => .failed failure
  | .ok records => .succeeded ((Showing.ofRun run records).summary s isPrimary)

namespace Turn

def isTrigger : Turn → Bool
  | .took _ _ => true
  | _ => false

variable (s : Settings) (isPrimary : SourceTest)

/-- The report that the turns after a start bring on the run that is in flight. The next of them
decides, and at a shutdown nobody is told. -/
def reportOn (f : Flight) : List Turn → Option Report
  | .took _ _ :: _ => some ⟨some f.run.id, .superseded⟩
  | .stopped :: _ => some ⟨some f.run.id, .cancelled⟩
  | .finished :: _ => (f.behaviour.result? s.limit).map fun result =>
      ⟨some f.run.id, .ofResult s isPrimary f.run result⟩
  | _ => none

/-- What is reported of each trigger that was taken, in order. A trigger that starts no run is
reported at once. -/
def accounts (h : History) : List Turn → List (Option Report)
  | [] => []
  | .took m t :: τs =>
    (match s.attempt m t with
      | .error e => some ⟨none, .failed (.start e)⟩
      | .ok _ => (History.inFlight s (.took m t :: h)).bind fun f => reportOn s isPrimary f τs) ::
      accounts (.took m t :: h) τs
  | τ :: τs => accounts (τ :: h) τs

/-- The run in flight when the turns come to a shutdown, or to their end. -/
def leftOver (h : History) : List Turn → Option Flight
  | [] => History.inFlight s h
  | .shut :: _ => History.inFlight s h
  | τ :: τs => leftOver (τ :: h) τs

theorem leftOver_cons {s : Settings} {τ : Turn} (hτ : τ ≠ .shut) (h : History) (τs : List Turn) :
    leftOver s h (τ :: τs) = leftOver s (τ :: h) τs := by
  cases τ with
  | shut => exact absurd rfl hτ
  | took | stopped | finished => rfl

def due (h : History) (τs : List Turn) : List (Option Report) :=
  ((History.inFlight s h).map fun f => reportOn s isPrimary f τs).toList ++
    accounts s isPrimary h τs

end Turn

namespace Turn

variable {s : Settings} {isPrimary : SourceTest}

theorem run_of_reportOn {f : Flight} {τs : List Turn} {r : Report}
    (h : reportOn s isPrimary f τs = some r) : r.run = some f.run.id := by
  unfold reportOn at h
  split at h
  · exact Option.some.inj h ▸ rfl
  · exact Option.some.inj h ▸ rfl
  · obtain ⟨result, -, hr⟩ := Option.map_eq_some_iff.mp h
    exact hr ▸ rfl
  · cases h

theorem outcome_of_reportOn {f : Flight} {τs : List Turn} {r : Report}
    (h : reportOn s isPrimary f τs = some r) :
    r.outcome ≠ .failed .cancelled ∧ ∀ e, r.outcome ≠ .failed (.start e) := by
  unfold reportOn at h
  split at h
  · exact Option.some.inj h ▸ ⟨nofun, nofun⟩
  · exact Option.some.inj h ▸ ⟨nofun, nofun⟩
  · obtain ⟨result, hresult, hr⟩ := Option.map_eq_some_iff.mp h
    subst hr
    cases result with
    | ok records => exact ⟨nofun, nofun⟩
    | error e =>
      obtain ⟨h1, h2⟩ := Execution.Behaviour.failure_of_result? hresult
      exact ⟨fun he => h1 (Outcome.failed.inj he), fun c he => h2 c (Outcome.failed.inj he)⟩
  · cases h

theorem length_accounts (h : History) (τs : List Turn) :
    (accounts s isPrimary h τs).length = τs.countP isTrigger := by
  induction τs generalizing h with
  | nil => rfl
  | cons τ τs ih => cases τ <;> simp [accounts, isTrigger, ih, List.countP_cons]

theorem report_of_mem_accounts {h : History} {τs : List Turn} {r : Report}
    (hr : some r ∈ accounts s isPrimary h τs) :
    (r.run = none ↔ ∃ e, r.outcome = .failed (.start e)) ∧ r.outcome ≠ .failed .cancelled := by
  induction τs generalizing h with
  | nil => cases hr
  | cons τ τs ih =>
    cases τ with
    | stopped | finished | shut => exact ih hr
    | took m t =>
      rcases List.mem_cons.mp hr with hr | hr
      · cases ha : s.attempt m t with
        | error e =>
          simp only [ha, Option.some.injEq] at hr
          subst hr
          exact ⟨⟨fun _ => ⟨e, rfl⟩, fun _ => rfl⟩, nofun⟩
        | ok b =>
          simp only [ha, History.inFlight_took_of_ok ha, Option.bind_some] at hr
          obtain ⟨h1, h2⟩ := outcome_of_reportOn hr.symm
          refine ⟨?_, h1⟩
          rw [run_of_reportOn hr.symm]
          exact ⟨nofun, fun ⟨e, he⟩ => absurd he (h2 e)⟩
      · exact ih hr

theorem numbers_accounts (h : History) (τs : List Turn) :
    let ids := (accounts s isPrimary h τs).filterMap fun r => r.bind Report.run
    (∀ id ∈ ids, h.issued s < id.number) ∧ ids.Pairwise fun a b => a.number < b.number := by
  induction τs generalizing h with
  | nil => exact ⟨nofun, .nil⟩
  | cons τ τs ih =>
    cases τ with
    | stopped => exact ih (.stopped :: h)
    | finished => exact ih (.finished :: h)
    | shut => exact ih (.shut :: h)
    | took m t =>
      obtain ⟨hnew, hup⟩ := ih (.took m t :: h)
      cases ha : s.attempt m t with
      | error e =>
        simp only [History.issued, ha] at hnew
        simp only [accounts, ha, List.filterMap_cons, Option.bind_some]
        exact ⟨hnew, hup⟩
      | ok b =>
        simp only [History.issued, ha] at hnew
        have hlt := fun id hid => Nat.lt_of_succ_lt (hnew id hid)
        simp only [accounts, ha, History.inFlight_took_of_ok ha, Option.bind_some]
        cases hr : reportOn s isPrimary
            ⟨⟨⟨h.issued s + 1⟩, t.root, History.document (.took m t :: h)⟩, b⟩ τs with
        | none => exact ⟨hlt, hup⟩
        | some r =>
          simp only [List.filterMap_cons, Option.bind_some, run_of_reportOn hr]
          refine ⟨fun id hid => ?_, List.pairwise_cons.mpr ⟨hnew, hup⟩⟩
          rcases List.mem_cons.mp hid with rfl | hid
          · exact Nat.lt_succ_self _
          · exact hlt id hid

end Turn

namespace Publisher

open Turn

variable {s : Settings} {isPrimary : SourceTest} {p : Publisher} {h : History}

theorem reports_dropRun (hp : p.Follows s isPrimary h) (o : Outcome) :
    (p.dropRun o).2.reports =
      ((h.inFlight s).map fun f => ⟨some f.run.id, o⟩).toList := by
  have hf := hp.flies
  cases hh : h.inFlight s with
  | none =>
    rw [hh] at hf
    rw [dropRun_of_idle hf]
    rfl
  | some f =>
    rw [hh] at hf
    rw [dropRun_of_awaits hf]
    rfl

theorem reports_conclude (hp : p.Follows s isPrimary h) {f : Flight}
    (hf : p.Awaits f.run f.behaviour) (result : Except Failure (List Record)) :
    (p.conclude f.run.id result).2.reports =
      [⟨some f.run.id, .ofResult s isPrimary f.run result⟩] := by
  cases result with
  | error e => rw [conclude_of_error hf]; rfl
  | ok records =>
    rw [conclude_of_ok hf]
    simp only [publish, visible, released, hp.settings, hp.source]
    rfl

theorem due_took (hp : p.Follows s isPrimary h) (m : Execution.Machine) (t : Trigger)
    (τs : List Turn) :
    due s isPrimary h (.took m t :: τs) =
      (p.turn (.took m t)).2.reports.map some ++ due s isPrimary (.took m t :: h) τs := by
  have hstep := inStep_of_flies hp.flies
  have hd := reports_dropRun hp .superseded
  cases ha : s.attempt m t with
  | error e =>
    have hn := History.inFlight_took_of_error (h := h) ha
    rw [turn_took_of_error hstep (by rwa [hp.settings]), Output.reports_append, hd]
    cases hh : h.inFlight s <;> simp [due, accounts, reportOn, ha, hh, hn]
  | ok b =>
    have hn := History.inFlight_took_of_ok (h := h) ha
    rw [turn_took_of_ok hstep (by rwa [hp.settings]), hd]
    cases hh : h.inFlight s <;> simp [due, accounts, reportOn, ha, hh, hn]

theorem due_cons (hp : p.Follows s isPrimary h) {τ : Turn} (hτ : τ ≠ .shut)
    (hr : τ = .finished → p.Ready) (τs : List Turn) :
    due s isPrimary h (τ :: τs) =
      (p.turn τ).2.reports.map some ++ due s isPrimary (τ :: h) τs := by
  cases τ with
  | shut => exact absurd rfl hτ
  | took m t => exact due_took hp m t τs
  | stopped =>
    have hd := reports_dropRun hp .cancelled
    change due s isPrimary h (.stopped :: τs) =
      (p.dropRun .cancelled).2.reports.map some ++ due s isPrimary (.stopped :: h) τs
    rw [hd]
    cases hh : h.inFlight s <;> simp [due, accounts, reportOn, hh]
  | finished =>
    obtain ⟨f, result, hh, hf, hr, hb⟩ := flight_of_ready hp (hr rfl)
    rw [turn_finished hf hr, reports_conclude hp hf]
    simp [due, accounts, reportOn, hh, hb]

end Publisher

namespace Service

open Turn

variable {s : Settings} {isPrimary : SourceTest} {v : Service} {h : History}

theorem due_run (hv : v.Follows s isPrimary h) (hend : v.hasEnded = false) (es : List Event) :
    due s isPrimary h (v.turns es) =
      (v.run es).2.reports.map some ++
        (leftOver s h (v.turns es)).toList.map fun _ => none := by
  induction es generalizing v h with
  | nil => cases hh : h.inFlight s <;> simp [turns, due, accounts, reportOn, leftOver, run, hh]
  | cons e es ih =>
    have hrun : (v.run (e :: es)).2.reports =
        (v.step e).2.reports ++ ((v.step e).1.run es).2.reports := rfl
    have hstep := follows_step hv e
    cases ht : v.turn? e with
    | none =>
      have hend' := hasEnded_step_of_ne hend (e := e) (by simp [ht])
      rw [ht] at hstep
      have hi := ih hstep hend'
      rw [hrun, (step_of_none ht).1, turns, ht]
      exact hi
    | some τ =>
      obtain ⟨-, hb⟩ := brings_of_turn? ht
      obtain ⟨-, hout, -⟩ := step_of_brings hv hend hb
      -- After a shutdown nothing comes any more, and the report on the run in flight stays due.
      by_cases hτ : τ = .shut
      · subst hτ
        obtain ⟨hnone, hturns, -⟩ := run_of_ended ((hasEnded_step hend e).mpr ht) es
        rw [hrun, hout, hnone, turns, ht, hturns]
        cases hh : h.inFlight s <;>
          simp [due, accounts, reportOn, leftOver, hh, Publisher.turn]
      · have hend' := hasEnded_step_of_ne hend (e := e) (by simp [ht, hτ])
        rw [ht] at hstep
        have hi := ih hstep hend'
        rw [hrun, hout, turns, ht]
        have hd := Publisher.due_cons hv.publisher hτ (ready_of_brings hv hb)
          ((v.step e).1.turns es)
        change due s isPrimary h (τ :: (v.step e).1.turns es) = _ ++
          (leftOver s h (τ :: (v.step e).1.turns es)).toList.map _
        rw [hd, leftOver_cons hτ, List.map_append, List.append_assoc]
        exact congrArg _ hi

theorem awaited_run (hv : v.Follows s isPrimary h) (hend : v.hasEnded = false) {es : List Event}
    (hopen : (v.run es).1.hasEnded = false) :
    (v.run es).1.publisher.awaited = (leftOver s h (v.turns es)).map Flight.run := by
  induction es generalizing v h with
  | nil => exact Publisher.awaited_of_flies hv.publisher.flies
  | cons e es ih =>
    have hstep := follows_step hv e
    cases ht : v.turn? e with
    | none =>
      rw [ht] at hstep
      have hi := ih hstep (hasEnded_step_of_ne hend (by simp [ht])) hopen
      rw [turns, ht]
      exact hi
    | some τ =>
      have hτ : τ ≠ .shut := by
        rintro rfl
        have hover := (run_of_ended ((hasEnded_step hend e).mpr ht) es).2.2
        cases hopen.symm.trans hover
      rw [ht] at hstep
      have hi := ih hstep (hasEnded_step_of_ne hend (by simp [ht, hτ])) hopen
      rw [turns, ht]
      change _ = (leftOver s h (τ :: (v.step e).1.turns es)).map Flight.run
      rw [leftOver_cons hτ]
      exact hi

theorem step_stopped_of_idle (hv : v.Follows s isPrimary h) {m : Execution.Machine}
    (ht : v.turn? (.next m) = some .stopped) (ha : v.publisher.awaited = none) :
    v.step (.next m) = ({ v with queue := v.queue.tail }, .none) := by
  have hpend : v.pending = none := by
    refine Option.eq_none_iff_forall_ne_some.mpr fun id hid => ?_
    have hawaited := hv.pending id hid
    rw [ha] at hawaited
    cases hawaited
  have hidle : v.publisher.Idle := by
    rcases Publisher.inStep_of_flies hv.publisher.flies with hi | ⟨run, b, hi⟩
    · exact hi
    · cases ha.symm.trans hi.awaited
  obtain ⟨hend, hb⟩ := brings_of_turn? ht
  cases hb with
  | cancel m rest hq =>
    simp only [step, next, hend, hq, handle, Publisher.cancel,
      Publisher.dropRun_of_idle hidle, Bool.false_eq_true, if_false]
    rw [← hpend, ← hend]
    rfl

theorem due_of_idle {p : Publisher} (hp : p.Follows s isPrimary h) (ha : p.awaited = none)
    (τs : List Turn) : due s isPrimary h τs = accounts s isPrimary h τs := by
  have hf := Publisher.awaited_of_flies hp.flies
  rw [ha] at hf
  rw [due, Option.map_eq_none_iff.mp hf.symm]
  rfl

/-- The triggers that a service takes and its reports belong together one to one and in order, but
for the last trigger if its run is in flight, now or at the shutdown. The service may take over from
any host that left nothing in flight. -/
theorem reports_run {p : Publisher} (hp : Publisher.Reachable s isPrimary p)
    (ha : p.awaited = none) (es : List Event) :
    let v := ((ofPublisher p).run es).1
    let reports := ((ofPublisher p).run es).2.reports
    let τs := (ofPublisher p).turns es
    (∃ h, p.Follows s isPrimary h) ∧
      (∀ h, p.Follows s isPrimary h →
        accounts s isPrimary h τs =
            reports.map some ++ (leftOver s h τs).toList.map (fun _ => none) ∧
          (accounts s isPrimary h τs).length = τs.countP isTrigger ∧
          (v.hasEnded = false → v.publisher.awaited = (leftOver s h τs).map Flight.run)) ∧
      (∀ r ∈ reports, (r.run = none ↔ ∃ e, r.outcome = .failed (.start e)) ∧
        r.outcome ≠ .failed .cancelled) ∧
      (∀ id ∈ reports.filterMap Report.run, p.runs.issued < id.number) ∧
      ((reports.filterMap Report.run).Pairwise fun a b => a.number < b.number) ∧
      ∀ m, v.turn? (.next m) = some .stopped → v.publisher.awaited = none →
        v.step (.next m) = ({ v with queue := v.queue.tail }, .none) := by
  intro v reports τs
  have haccounts : ∀ h, p.Follows s isPrimary h → accounts s isPrimary h τs =
      reports.map some ++ (leftOver s h τs).toList.map fun _ => none := by
    intro h hf
    rw [← due_of_idle hf ha]
    exact due_run (follows_ofPublisher hf) rfl es
  obtain ⟨_, h, ht⟩ := Publisher.tracks_of_reachable hp
  have hf := ht.follows
  have hmem : ∀ r ∈ reports, some r ∈ accounts s isPrimary h τs := fun r hr =>
    haccounts h hf ▸ List.mem_append_left _ (List.mem_map_of_mem hr)
  have hids : (accounts s isPrimary h τs).filterMap (fun r => r.bind Report.run) =
      reports.filterMap Report.run := by
    rw [haccounts h hf, List.filterMap_append, List.filterMap_map]
    cases leftOver s h τs with
    | none => exact List.append_nil _
    | some f => exact List.append_nil _
  obtain ⟨hnew, hup⟩ := numbers_accounts h τs
  rw [hids] at hnew hup
  rw [← hf.issued] at hnew
  refine ⟨⟨h, hf⟩, fun h hf => ⟨haccounts h hf, length_accounts h τs, ?_⟩, fun r hr => ?_, hnew, hup,
    fun m hstopped hidle => ?_⟩
  · exact awaited_run (follows_ofPublisher hf) rfl
  · exact report_of_mem_accounts (hmem r hr)
  · exact step_stopped_of_idle (follows_run (follows_ofPublisher hf) es) hstopped hidle

theorem reports_run_of_driven :
    let p := (((Publisher.new Sample.settings).withSourceTest fun _ => true).operate
      (.run (Sample.machine Sample.failing) Sample.trigger)).1
    let es : List Event := [.send (.trigger Sample.trigger), .send (.trigger Sample.trigger),
      .send .cancel, .next (Sample.machine Sample.hanging), .next (Sample.machine Sample.failing),
      .settle ⟨3⟩, .collect, .next (Sample.machine Sample.hanging)]
    let reports := ((ofPublisher p).run es).2.reports
    Publisher.Reachable Sample.settings (fun _ => true) p ∧ p.awaited = none ∧
      reports = [⟨some ⟨2⟩, .superseded⟩, ⟨some ⟨3⟩, .succeeded ⟨1, 1, 1⟩⟩] ∧
      ∀ id ∈ reports.filterMap Report.run, 1 < id.number := by
  intro p es reports
  have hnew : Publisher.Reachable Sample.settings (fun _ => true) _ := .new
  have hp : Publisher.Reachable Sample.settings (fun _ => true) p :=
    hnew.operate (.run (Sample.machine Sample.failing) Sample.trigger)
  have ha : p.awaited = none := rfl
  obtain ⟨-, -, -, hnumbers, -, -⟩ := reports_run hp ha es
  exact ⟨hp, ha, rfl, hnumbers⟩

end Service

end BuildWatch
