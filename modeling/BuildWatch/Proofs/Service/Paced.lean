import BuildWatch.Proofs.Rested
import BuildWatch.Proofs.Service.Shutdown

namespace BuildWatch.Service

def Event.StaysOn (m : Execution.Machine) : Event → Prop
  | .send _ | .close => False
  | .next m' => m' = m
  | .settle _ | .collect => True

/-- Triggers that are sent to a service one by one, each after the report on the one before has
come. Each is taken and carried out on its own machine. -/
inductive Paced (v : Service) : List (Execution.Machine × Trigger) → List Event → Prop where
  | idle {es : List Event} : (∀ e ∈ es, ∃ m, e.StaysOn m) → Paced v [] es
  | round {xs : List (Execution.Machine × Trigger)} {es more : List Event}
      {m : Execution.Machine} {t : Trigger} :
    Paced v xs es → (∀ e ∈ more, e.StaysOn m) →
      ((v.run es).1.run (.send (.trigger t) :: more)).2.reports ≠ [] →
      Paced v (xs ++ [(m, t)]) (es ++ .send (.trigger t) :: more)

def waiting (p : Publisher) (id : RunId) : Service := ⟨p, some id, [], true, false⟩

/-- How far a service has got with a trigger that came when its publisher rested, and what it has
given off since. -/
inductive Round (p : Publisher) (m : Execution.Machine) (t : Trigger) : Service → Output → Prop where
  | queued : Round p m t ((ofPublisher p).send (.trigger t)) .none
  | begun (b : Execution.Behaviour) : p.settings.attempt m t = .ok b →
    Round p m t (waiting (p.begun t b) ⟨p.runs.issued + 1⟩) .none
  | settled (b : Execution.Behaviour) : p.settings.attempt m t = .ok b →
    Round p m t (waiting ((p.begun t b).settle ⟨p.runs.issued + 1⟩) ⟨p.runs.issued + 1⟩) .none
  | done : Round p m t (ofPublisher (p.run m t).1) (p.run m t).2

section Round

variable {s : Settings} {p : Publisher} {m : Execution.Machine} {t : Trigger}

theorem step_of_rested (hp : p.Rested s) (isOpen hasEnded : Bool) {e : Event} (he : e.StaysOn m) :
    step ⟨p, none, [], isOpen, hasEnded⟩ e =
      (⟨p, none, [], isOpen, hasEnded || (!isOpen && e.isNext)⟩, .none) := by
  cases e with
  | send | close => cases he
  | settle id => simp [step, settle, Publisher.settle_of_quiet hp.quiet, Event.isNext]
  | collect => cases hasEnded <;> simp [step, collect, Event.isNext]
  | next m' =>
    cases hasEnded <;> cases isOpen <;>
      simp [step, next, Publisher.cancel_of_rested hp, Event.isNext]
    rfl

theorem run_of_rested (hp : p.Rested s) (isOpen hasEnded : Bool) {es : List Event}
    (hes : ∀ e ∈ es, ∃ m, e.StaysOn m) :
    run ⟨p, none, [], isOpen, hasEnded⟩ es =
      (⟨p, none, [], isOpen, hasEnded || (!isOpen && es.any Event.isNext)⟩, .none) := by
  induction es generalizing hasEnded with
  | nil => simp [run]
  | cons e es ih =>
    obtain ⟨⟨m, he⟩, hes⟩ := List.forall_mem_cons.mp hes
    simp only [run, step_of_rested hp isOpen hasEnded he, ih _ hes, Output.none_append,
      List.any_cons, Bool.and_or_distrib_left, Bool.or_assoc]

theorem next_queued_of_error (hp : p.Rested s) {e : StartError} (ha : s.attempt m t = .error e) :
    ((ofPublisher p).send (.trigger t)).step (.next m) =
      (ofPublisher (p.run m t).1, (p.run m t).2) := by
  have ha' : p.settings.attempt m t = .error e := by rwa [hp.settings]
  rw [Publisher.run_of_rested_of_error hp ha]
  simp only [ofPublisher, send, step, next, handle, Publisher.supersede, List.nil_append,
    Publisher.dropRun_of_idle hp.idle, Publisher.startRun_of_error hp.idle ha',
    Bool.false_eq_true, if_false, if_true]
  rfl

theorem next_queued_of_ok (hp : p.Rested s) {b : Execution.Behaviour}
    (ha : s.attempt m t = .ok b) :
    ((ofPublisher p).send (.trigger t)).step (.next m) =
      (waiting (p.begun t b) ⟨p.runs.issued + 1⟩, .none) := by
  have ha' : p.settings.attempt m t = .ok b := by rwa [hp.settings]
  simp only [ofPublisher, send, step, next, handle, Publisher.supersede, List.nil_append,
    Publisher.dropRun_of_idle hp.idle, Publisher.startRun_of_ok hp.idle ha',
    Bool.false_eq_true, if_false, if_true, waiting]

theorem collect_settled (hp : p.Rested s) (hends : s.Ends m t) {b : Execution.Behaviour}
    (ha : s.attempt m t = .ok b) :
    (waiting ((p.begun t b).settle ⟨p.runs.issued + 1⟩) ⟨p.runs.issued + 1⟩).step .collect =
      (ofPublisher (p.run m t).1, (p.run m t).2) := by
  obtain ⟨result, hb⟩ := Option.isSome_iff_exists.mp (hends b ha)
  have hr : ((p.begun t b).settle ⟨p.runs.issued + 1⟩).runs.result? ⟨p.runs.issued + 1⟩ =
      some result := by
    rw [← hb, ← hp.limit]
    exact Runs.result?_settle_begun p.runs b
  rw [Publisher.run_of_rested_of_ok hp ha hb]
  simp only [waiting, step, collect, hr, Bool.false_eq_true, if_false]
  rfl

theorem round_of_queued (hp : p.Rested s) {e : Event} (he : e.StaysOn m) :
    let w := ((ofPublisher p).send (.trigger t)).step e
    Round p m t w.1 w.2 := by
  cases e with
  | send | close => cases he
  | collect => exact .queued
  | settle id =>
    change Round p m t ((ofPublisher (p.settle id)).send (.trigger t)) .none
    rw [Publisher.settle_of_quiet hp.quiet]
    exact .queued
  | next m' =>
    obtain rfl : m' = m := he
    cases ha : s.attempt m' t with
    | error e =>
      rw [next_queued_of_error hp ha]
      exact .done
    | ok b =>
      rw [next_queued_of_ok hp ha]
      exact .begun b (by rwa [hp.settings])

theorem round_of_begun (hp : p.Rested s) {b : Execution.Behaviour}
    (ha : p.settings.attempt m t = .ok b) {e : Event} (he : e.StaysOn m) :
    let w := (waiting (p.begun t b) ⟨p.runs.issued + 1⟩).step e
    Round p m t w.1 w.2 := by
  cases e with
  | send | close => cases he
  | next m' => exact .begun b ha
  | collect =>
    have hr : (p.begun t b).runs.result? ⟨p.runs.issued + 1⟩ = none :=
      Runs.result?_begun p.runs b
    simp only [waiting, step, collect, hr, Bool.false_eq_true, if_false]
    exact .begun b ha
  | settle id =>
    change Round p m t (waiting ((p.begun t b).settle id) ⟨p.runs.issued + 1⟩) .none
    by_cases hid : id = ⟨p.runs.issued + 1⟩
    · subst hid
      exact .settled b ha
    · rw [Publisher.settle_begun_of_ne hp b hid]
      exact .begun b ha

theorem round_of_settled (hp : p.Rested s) (hends : s.Ends m t) {b : Execution.Behaviour}
    (ha : s.attempt m t = .ok b) {e : Event} (he : e.StaysOn m) :
    let w := (waiting ((p.begun t b).settle ⟨p.runs.issued + 1⟩) ⟨p.runs.issued + 1⟩).step e
    Round p m t w.1 w.2 := by
  have hsettled : Round p m t _ _ := .settled b (by rwa [hp.settings])
  cases e with
  | send | close => cases he
  | next m' => exact hsettled
  | collect =>
    rw [collect_settled hp hends ha]
    exact .done
  | settle id =>
    change Round p m t (waiting (((p.begun t b).settle ⟨p.runs.issued + 1⟩).settle id)
      ⟨p.runs.issued + 1⟩) .none
    rw [Publisher.settle_of_quiet (Publisher.quiet_settled hp (hends b ha))]
    exact hsettled

theorem round_step (hp : p.Rested s) (hends : s.Ends m t) {v : Service} {out : Output}
    (hv : Round p m t v out) {e : Event} (he : e.StaysOn m) :
    Round p m t (v.step e).1 (out ++ (v.step e).2) := by
  cases hv with
  | queued => exact round_of_queued hp he
  | begun b ha => exact round_of_begun hp ha he
  | settled b ha => exact round_of_settled hp hends (by rwa [hp.settings] at ha) he
  | done =>
    have hq := (Publisher.rested_run hp hends).1
    rw [ofPublisher, step_of_rested hq true false he, Output.append_none]
    exact .done

theorem round_run (hp : p.Rested s) (hends : s.Ends m t) {v : Service} {out : Output}
    (hv : Round p m t v out) {es : List Event} (hes : ∀ e ∈ es, e.StaysOn m) :
    Round p m t (v.run es).1 (out ++ (v.run es).2) := by
  induction es generalizing v out with
  | nil => rwa [run, Output.append_none]
  | cons e es ih =>
    obtain ⟨he, hes⟩ := List.forall_mem_cons.mp hes
    rw [run, ← Output.append_assoc]
    exact ih (round_step hp hends hv he) hes

theorem eq_run_of_round {v : Service} {out : Output} (hv : Round p m t v out)
    (hr : out.reports ≠ []) : v = ofPublisher (p.run m t).1 ∧ out = (p.run m t).2 := by
  cases hv with
  | queued | begun | settled => exact absurd rfl hr
  | done => exact ⟨rfl, rfl⟩

theorem exists_rest (hp : p.Rested s) (hends : s.Ends m t) {v : Service} {out : Output}
    (hv : Round p m t v out) :
    ∃ rest, (∀ e ∈ rest, e.StaysOn m) ∧ out ++ (v.run rest).2 = (p.run m t).2 := by
  have hlast : ∀ b, s.attempt m t = .ok b →
      ((waiting ((p.begun t b).settle ⟨p.runs.issued + 1⟩) ⟨p.runs.issued + 1⟩).run
        [.collect]).2 = (p.run m t).2 := by
    intro b ha
    simp only [run, collect_settled hp hends ha, Output.append_none]
  cases hv with
  | queued =>
    cases ha : s.attempt m t with
    | error e =>
      refine ⟨[.next m], by simp [Event.StaysOn], ?_⟩
      simp only [run, next_queued_of_error hp ha, Output.append_none, Output.none_append]
    | ok b =>
      refine ⟨[.next m, .settle ⟨p.runs.issued + 1⟩, .collect], by simp [Event.StaysOn], ?_⟩
      rw [run, next_queued_of_ok hp ha]
      exact hlast b ha
  | begun b ha =>
    refine ⟨[.settle ⟨p.runs.issued + 1⟩, .collect], by simp [Event.StaysOn], ?_⟩
    exact hlast b (by rwa [hp.settings] at ha)
  | settled b ha =>
    refine ⟨[.collect], by simp [Event.StaysOn], ?_⟩
    exact hlast b (by rwa [hp.settings] at ha)
  | done => exact ⟨[], by simp, Output.append_none _⟩

end Round

variable {s : Settings} {isPrimary : SourceTest}

/-- A new publisher after a full cycle for each trigger, by hand, and what it gave off. -/
def byHand (s : Settings) (isPrimary : SourceTest) (xs : List (Execution.Machine × Trigger)) :
    Publisher × Output :=
  ((Publisher.new s).withSourceTest isPrimary).drive (xs.map fun x => .run x.1 x.2)

theorem byHand_append (xs : List (Execution.Machine × Trigger)) (m : Execution.Machine)
    (t : Trigger) :
    byHand s isPrimary (xs ++ [(m, t)]) =
      (((byHand s isPrimary xs).1.run m t).1,
        (byHand s isPrimary xs).2 ++ ((byHand s isPrimary xs).1.run m t).2) := by
  simp only [byHand, List.map_append, Publisher.drive_append, List.map_cons, List.map_nil,
    Publisher.drive, Publisher.operate, Output.append_none]

theorem round_paced {p : Publisher} (hp : p.Rested s) {m : Execution.Machine} {t : Trigger}
    (hends : s.Ends m t) {more : List Event} (hmore : ∀ e ∈ more, e.StaysOn m) :
    let w := (ofPublisher p).run (.send (.trigger t) :: more)
    Round p m t w.1 w.2 :=
  round_run hp hends .queued hmore

theorem run_paced {xs : List (Execution.Machine × Trigger)} (hends : ∀ x ∈ xs, s.Ends x.1 x.2)
    {es : List Event} (hes : Paced (fresh s isPrimary) xs es) :
    (fresh s isPrimary).run es =
      (ofPublisher (byHand s isPrimary xs).1, (byHand s isPrimary xs).2) := by
  induction hes with
  | idle hes => exact (run_of_rested (Publisher.rested_new s isPrimary) true false hes).trans rfl
  | @round xs es more m t hes hmore hr ih =>
    -- by hand and by the service, the round begins from the same publisher, which is at rest
    have ih := ih fun x hx => hends x (List.mem_append_left _ hx)
    have hx : s.Ends m t := hends (m, t) (by simp)
    have hp : (byHand s isPrimary xs).1.Rested s :=
      (Publisher.rested_drive (Publisher.rested_new s isPrimary)
        fun x hx => hends x (List.mem_append_left _ hx)).1
    rw [ih] at hr
    obtain ⟨hv, hout⟩ := eq_run_of_round (round_paced hp hx hmore) hr
    simp only [run_append, ih, byHand_append, hv, hout]

/-- The triggers of a service that is fed one by one, each after the report on the one before, come
to the same as runs by hand: the same edits in the same order, the same reports, and the same
publisher at the end. Such a feeding can always go on, and the service ends once all clients are
gone. -/
theorem run_of_paced (s : Settings) (isPrimary : SourceTest)
    (xs : List (Execution.Machine × Trigger)) (hends : ∀ x ∈ xs, s.Ends x.1 x.2) (es : List Event)
    (hes : Paced (fresh s isPrimary) xs es) :
    (∀ rest, (∀ e ∈ rest, ∃ m, e.StaysOn m) →
      let v := (fresh s isPrimary).run (es ++ .close :: rest)
      v.2 = (byHand s isPrimary xs).2 ∧ v.1.publisher = (byHand s isPrimary xs).1 ∧
        v.2.reports.length = xs.length ∧ (rest.any Event.isNext = true → v.1.hasEnded = true)) ∧
      ∀ m t, s.Ends m t → ∀ more, (∀ e ∈ more, e.StaysOn m) →
        ∃ rest, (∀ e ∈ rest, e.StaysOn m) ∧
          Paced (fresh s isPrimary) (xs ++ [(m, t)])
            (es ++ .send (.trigger t) :: (more ++ rest)) := by
  have hrun := run_paced hends hes
  obtain ⟨hp, hl⟩ : (byHand s isPrimary xs).1.Rested s ∧
      (byHand s isPrimary xs).2.reports.length = xs.length :=
    Publisher.rested_drive (Publisher.rested_new s isPrimary) hends
  refine ⟨fun rest hrest => ?_, fun m t hx more hmore => ?_⟩
  · intro v
    have hv : v = (⟨(byHand s isPrimary xs).1, none, [], false, rest.any Event.isNext⟩,
        (byHand s isPrimary xs).2) := by
      have hclosed := run_of_rested hp false false hrest
      simp only [Bool.false_or, Bool.not_false, Bool.true_and] at hclosed
      simp only [v, run_append, hrun, run, step, close, ofPublisher, hclosed, Output.append_none]
    rw [hv]
    exact ⟨rfl, rfl, hl, id⟩
  · have hround := round_paced hp hx hmore
    obtain ⟨rest, hrest, hout⟩ := exists_rest hp hx hround
    refine ⟨rest, hrest, .round hes (fun e he => ?_) ?_⟩
    · rcases List.mem_append.mp he with he | he
      · exact hmore e he
      · exact hrest e he
    · have hone := (Publisher.rested_run hp hx).2
      rw [hrun, ← List.cons_append, run_append, hout]
      exact List.ne_nil_of_length_eq_add_one hone

theorem run_of_paced_after_failure :
    let bare := { Sample.machine Sample.failing with searchPath := [] }
    let m := Sample.machine Sample.failing
    let xs := [(bare, Sample.trigger), (m, Sample.trigger)]
    let es : List Event :=
      [.send (.trigger Sample.trigger), .next bare, .send (.trigger Sample.trigger), .collect,
        .next m, .settle ⟨7⟩, .collect, .settle ⟨1⟩, .next m, .collect]
    let v := (fresh Sample.settings fun _ => true).run (es ++ .close :: [.next m])
    (∀ x ∈ xs, Sample.settings.Ends x.1 x.2) ∧ Paced (fresh Sample.settings fun _ => true) xs es ∧
      v.2.edits = (byHand Sample.settings (fun _ => true) xs).2.edits ∧
      v.2.reports.map Report.run = [none, some ⟨1⟩] ∧
      v.1.publisher.phase = .idle ∧ v.1.hasEnded = true := by
  intro bare m xs es v
  have hends : ∀ x ∈ xs, Sample.settings.Ends x.1 x.2 := by decide
  have hfirst : Paced (fresh Sample.settings fun _ => true) ([] ++ [(bare, Sample.trigger)])
      ([] ++ .send (.trigger Sample.trigger) :: [.next bare]) :=
    .round (.idle nofun) (by simp [Event.StaysOn]) (by decide)
  have hes : Paced (fresh Sample.settings fun _ => true) xs es :=
    .round hfirst (by simp [Event.StaysOn]) (by decide)
  obtain ⟨hsame, -⟩ := run_of_paced Sample.settings (fun _ => true) xs hends es hes
  obtain ⟨hout, hpub, -, hended⟩ := hsame [.next m] (by simp [Event.StaysOn])
  refine ⟨hends, hes, congrArg Output.edits hout, ?_, ?_, hended rfl⟩
  · rw [hout]
    decide
  · rw [hpub]
    decide

end BuildWatch.Service
