import BuildWatch.Proofs.Driving

namespace BuildWatch

def Settings.Ends (s : Settings) (m : Execution.Machine) (t : Trigger) : Prop :=
  ∀ b, s.attempt m t = .ok b → (b.result? s.limit).isSome

instance (s : Settings) (m : Execution.Machine) (t : Trigger) : Decidable (s.Ends m t) :=
  match h : s.attempt m t with
  | .error _ => .isTrue fun _ hb => nomatch h.symm.trans hb
  | .ok b => decidable_of_iff ((b.result? s.limit).isSome = true)
      ⟨fun hs _ hb => Except.ok.inj (h.symm.trans hb) ▸ hs, fun hs => hs b h⟩

theorem Run.settle_of_ne {r : Run} (h : r.slot ≠ .waiting) (limit : Option UInt64) :
    r.settle limit = r := by
  unfold settle
  split
  · contradiction
  · rfl

namespace Runs

def Quiet (s : Runs) : Prop := ∀ r ∈ s.started, r.slot ≠ .waiting

variable {s : Runs}

theorem settle_of_quiet (hs : s.Quiet) (id : RunId) : s.settle id = s := by
  have hmap : s.started.map (fun r => if r.id = id then r.settle s.limit else r) = s.started := by
    refine (List.map_congr_left fun r hr => ?_).trans (List.map_id _)
    split
    · exact Run.settle_of_ne (hs r hr) s.limit
    · rfl
  rw [settle, updateRun, hmap]

theorem quiet_forget (hs : s.Quiet) (id : RunId) : (s.forget id).Quiet := by
  unfold forget
  split
  · exact hs
  · exact hs

theorem run?_begun (s : Runs) (b : Execution.Behaviour) :
    (s.begun b).run? ⟨s.issued + 1⟩ = some ⟨⟨s.issued + 1⟩, b, false, .waiting⟩ := by
  simp [begun, run?]

theorem settle_begun (hs : s.Quiet) (b : Execution.Behaviour) (id : RunId) :
    (s.begun b).settle id =
      if id = ⟨s.issued + 1⟩ then
        { s.begun b with
          started := Run.settle s.limit ⟨⟨s.issued + 1⟩, b, false, .waiting⟩ :: s.started }
      else s.begun b := by
  have htail : s.started.map (fun r => if r.id = id then r.settle s.limit else r) = s.started :=
    congrArg Runs.started (settle_of_quiet hs id)
  by_cases h : id = ⟨s.issued + 1⟩
  · subst h
    simp only [settle, updateRun, begun, List.map_cons, htail, if_true]
  · have h' : (⟨s.issued + 1⟩ : RunId) ≠ id := Ne.symm h
    simp only [settle, updateRun, begun, List.map_cons, htail, if_neg h, if_neg h']

theorem result?_begun (s : Runs) (b : Execution.Behaviour) :
    (s.begun b).result? ⟨s.issued + 1⟩ = none := by
  rw [result?, run?_begun]
  rfl

theorem result?_settle_begun (s : Runs) (b : Execution.Behaviour) :
    ((s.begun b).settle ⟨s.issued + 1⟩).result? ⟨s.issued + 1⟩ = b.result? s.limit := by
  rw [result?, run?_settle, run?_begun, Option.map_some, if_pos rfl, Option.bind_some]
  exact Run.result?_settle trivial rfl

theorem quiet_settle_begun (hs : s.Quiet) {b : Execution.Behaviour}
    (hb : (b.result? s.limit).isSome) : ((s.begun b).settle ⟨s.issued + 1⟩).Quiet := by
  rw [settle_begun hs, if_pos rfl]
  intro r hr
  rcases List.mem_cons.mp hr with rfl | hr
  · intro hw
    have hres : Run.result? _ = b.result? s.limit :=
      Run.result?_settle (r := ⟨⟨s.issued + 1⟩, b, false, .waiting⟩) trivial rfl
    rw [← hres, Run.result?, hw] at hb
    cases hb
  · exact hs r hr

end Runs

namespace Publisher

/-- A publisher of some settings with nothing in flight and nothing left to be handed over. -/
structure Rested (s : Settings) (p : Publisher) : Prop where
  settings : p.settings = s
  limit : p.runs.limit = s.limit
  idle : p.Idle
  quiet : p.runs.Quiet

variable {s : Settings} {p : Publisher} {m : Execution.Machine} {t : Trigger}

theorem rested_new (s : Settings) (isPrimary : SourceTest) :
    ((new s).withSourceTest isPrimary).Rested s :=
  ⟨rfl, rfl, ⟨rfl, rfl, rfl⟩, nofun⟩

theorem settle_of_quiet (hq : p.runs.Quiet) (id : RunId) : p.settle id = p := by
  rw [settle, Runs.settle_of_quiet hq]

theorem cancel_of_rested (hp : p.Rested s) : p.cancel = (p, .none) :=
  dropRun_of_idle hp.idle .cancelled

theorem run_of_rested_of_error (hp : p.Rested s) {e : StartError}
    (ha : s.attempt m t = .error e) :
    p.run m t =
      ({ p with lastDocument := t.document.or p.lastDocument },
        .report ⟨none, .failed (.start e)⟩) := by
  have ha' : p.settings.attempt m t = .error e := by rwa [hp.settings]
  simp only [run, replace, supersede, dropRun_of_idle hp.idle, startRun_of_error hp.idle ha']
  rfl

theorem run_of_rested_of_ok (hp : p.Rested s) {b : Execution.Behaviour}
    (ha : s.attempt m t = .ok b) {result : Except Failure (List Record)}
    (hb : b.result? s.limit = some result) :
    p.run m t = ((p.begun t b).settle ⟨p.runs.issued + 1⟩).conclude ⟨p.runs.issued + 1⟩ result := by
  have ha' : p.settings.attempt m t = .ok b := by rwa [hp.settings]
  have hr : ((p.begun t b).settle ⟨p.runs.issued + 1⟩).runs.result? ⟨p.runs.issued + 1⟩ =
      some result := by
    rw [← hb, ← hp.limit]
    exact Runs.result?_settle_begun p.runs b
  simp only [run, replace, supersede, dropRun_of_idle hp.idle, startRun_of_ok hp.idle ha',
    collect, hr]
  rfl

theorem rested_released {run : AwaitedRun} {b : Execution.Behaviour} (hf : p.Awaits run b)
    (hs : p.settings = s) (hl : p.runs.limit = s.limit) (hq : p.runs.Quiet) :
    (p.released run.id).Rested s := by
  refine ⟨hs, ?_, idle_released hf, Runs.quiet_forget hq run.id⟩
  change (p.runs.forget run.id).limit = s.limit
  rw [Runs.forget, if_pos hf.current]
  exact hl

theorem settle_begun_of_ne (hp : p.Rested s) (b : Execution.Behaviour) {id : RunId}
    (hid : id ≠ ⟨p.runs.issued + 1⟩) : (p.begun t b).settle id = p.begun t b := by
  have hruns : (p.runs.begun b).settle id = p.runs.begun b := by
    rw [Runs.settle_begun hp.quiet, if_neg hid]
  exact congrArg (fun runs => { p.begun t b with runs }) hruns

theorem quiet_settled (hp : p.Rested s) {b : Execution.Behaviour}
    (hb : (b.result? s.limit).isSome) :
    ((p.begun t b).settle ⟨p.runs.issued + 1⟩).runs.Quiet :=
  Runs.quiet_settle_begun hp.quiet (by rwa [hp.limit])

theorem rested_run (hp : p.Rested s) (hends : s.Ends m t) :
    (p.run m t).1.Rested s ∧ (p.run m t).2.reports.length = 1 := by
  cases ha : s.attempt m t with
  | error e =>
    rw [run_of_rested_of_error hp ha]
    exact ⟨⟨hp.settings, hp.limit, ⟨hp.idle.phase, hp.idle.awaited, hp.idle.current⟩, hp.quiet⟩, rfl⟩
  | ok b =>
    obtain ⟨result, hb⟩ := Option.isSome_iff_exists.mp (hends b ha)
    have hf := awaits_settle (awaits_begun p t b) ⟨p.runs.issued + 1⟩
    have hr := rested_released hf hp.settings hp.limit (quiet_settled hp (hends b ha))
    rw [run_of_rested_of_ok hp ha hb]
    cases result with
    | error e =>
      rw [conclude_of_error hf e]
      exact ⟨hr, rfl⟩
    | ok records =>
      rw [conclude_of_ok hf records]
      exact ⟨⟨hr.settings, hr.limit, ⟨hr.idle.phase, hr.idle.awaited, hr.idle.current⟩, hr.quiet⟩,
        rfl⟩

theorem rested_drive (hp : p.Rested s) {xs : List (Execution.Machine × Trigger)}
    (hends : ∀ x ∈ xs, s.Ends x.1 x.2) :
    (p.drive (xs.map fun x => .run x.1 x.2)).1.Rested s ∧
      (p.drive (xs.map fun x => .run x.1 x.2)).2.reports.length = xs.length := by
  induction xs generalizing p with
  | nil => exact ⟨hp, rfl⟩
  | cons x xs ih =>
    obtain ⟨hx, hends⟩ := List.forall_mem_cons.mp hends
    obtain ⟨hr, hone⟩ := rested_run hp hx
    obtain ⟨hrest, hl⟩ := ih hr hends
    refine ⟨hrest, ?_⟩
    simp only [List.map_cons, drive, operate, Output.reports_append,
      List.length_append, hone, hl, List.length_cons, Nat.add_comm]

end Publisher

end BuildWatch
