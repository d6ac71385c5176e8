import BuildWatch.Proofs.Remembered
import BuildWatch.Settings.Loading

namespace BuildWatch

namespace Config

variable {c : Config} {e : Environment} {tool? : Option String}

/-- The tool that a configuration and an environment come to. References are expanded in the name
that the configuration gives, but not in the value of the variable, and neither counts if it is
blank. -/
inductive Chooses (c : Config) (e : Environment) : Option String → Prop where
  | overridden {value : String} (hvalue : e.get? Settings.toolVariable = some value)
      (hsolid : Text.allBlank value.toList = false) : Chooses c e (some (Text.trimmed value))
  | configured {text : String}
      (hvariable : ∀ value, e.get? Settings.toolVariable = some value →
        Text.allBlank value.toList = true)
      (htext : c.runner.bind Settings.toolName = some text)
      (hsolid : Text.allBlank (Expansion.expand e text).toList = false) :
      Chooses c e (some (Text.trimmed (Expansion.expand e text)))
  | missing
      (hvariable : ∀ value, e.get? Settings.toolVariable = some value →
        Text.allBlank value.toList = true)
      (htext : ∀ text, c.runner.bind Settings.toolName = some text →
        Text.allBlank (Expansion.expand e text).toList = true) : Chooses c e none

theorem settings_eq (c : Config) (e : Environment) :
    c.settings e = { c.runner.getD {} with toolName := (c.settings e).toolName } := by
  unfold settings Settings.resolve
  split <;> rfl

theorem toolName_of_overridden {value : String}
    (hvalue : e.get? Settings.toolVariable = some value)
    (hsolid : Text.allBlank value.toList = false) : (c.settings e).toolName = some value := by
  simp [settings, Settings.resolve, hvalue, hsolid]

theorem toolName_of_not_overridden
    (hvariable : ∀ value, e.get? Settings.toolVariable = some value →
      Text.allBlank value.toList = true) :
    (c.settings e).toolName = (c.runner.bind Settings.toolName).map (Expansion.expand e) := by
  have hname : (c.runner.getD {}).toolName = c.runner.bind Settings.toolName := by
    cases c.runner <;> rfl
  cases hvalue : e.get? Settings.toolVariable with
  | none => simp [settings, Settings.resolve, hvalue, hname]
  | some value => simp [settings, Settings.resolve, hvalue, hname, hvariable value hvalue]

theorem tool?_of_chooses (h : c.Chooses e tool?) : (c.settings e).tool? = tool? := by
  cases h with
  | overridden hvalue hsolid =>
    rw [Settings.tool?, toolName_of_overridden hvalue hsolid]
    exact if_neg (Bool.eq_false_iff.mp hsolid)
  | configured hvariable htext hsolid =>
    rw [Settings.tool?, toolName_of_not_overridden hvariable, htext]
    exact if_neg (Bool.eq_false_iff.mp hsolid)
  | missing hvariable htext =>
    rw [Settings.tool?, toolName_of_not_overridden hvariable]
    cases hname : c.runner.bind Settings.toolName with
    | none => rfl
    | some text => exact if_pos (htext text hname)

theorem exists_chooses (c : Config) (e : Environment) : ∃ tool?, c.Chooses e tool? := by
  by_cases hvariable : ∀ value, e.get? Settings.toolVariable = some value →
      Text.allBlank value.toList = true
  · by_cases htext : ∀ text, c.runner.bind Settings.toolName = some text →
        Text.allBlank (Expansion.expand e text).toList = true
    · exact ⟨none, .missing hvariable htext⟩
    · push Not at htext
      obtain ⟨text, hname, hsolid⟩ := htext
      exact ⟨_, .configured hvariable hname (Bool.eq_false_iff.mpr hsolid)⟩
  · push Not at hvariable
    obtain ⟨value, hvalue, hsolid⟩ := hvariable
    exact ⟨_, .overridden hvalue (Bool.eq_false_iff.mpr hsolid)⟩

end Config

def Report.withoutTool : Report := ⟨none, .failed (.start (.notFound none))⟩

namespace Publisher

structure Starts (p : Publisher) (m : Execution.Machine) (t : Trigger) (tool : String) : Prop where
  runs : (p.replace m t).1.runs = (p.runs.start m tool t.root).1
  begun : (p.replace m t).2.2 =
    (p.runs.start m tool t.root).2.mapError fun err => ⟨none, .failed (.start err)⟩
  served : (Service.handle p m (.trigger t)).1 = (p.replace m t).1
  pending : (Service.handle p m (.trigger t)).2.1 = (p.replace m t).2.2.toOption

/-- Nothing was ever started or published, and there is no tool to start. -/
structure Barren (p : Publisher) : Prop where
  tool : p.settings.tool? = none
  phase : p.phase = .idle
  awaited : p.awaited = none
  runs : p.runs = .new p.settings.limit
  published : p.published = []

variable {s : Settings} {isPrimary : SourceTest} {p : Publisher}

section Starting

theorem handle_eq_replace (p : Publisher) (m : Execution.Machine) (t : Trigger) :
    (Service.handle p m (.trigger t)).1 = (p.replace m t).1 ∧
      (Service.handle p m (.trigger t)).2.1 = (p.replace m t).2.2.toOption := by
  unfold Service.handle replace
  generalize p.supersede = d
  obtain ⟨q, out⟩ := d
  dsimp only
  cases q.startRun m t with
  | mk r begun => cases begun <;> exact ⟨rfl, rfl⟩

theorem cancelCurrent_dropRun (hp : p.InStep) (o : Outcome) :
    (p.dropRun o).1.runs.cancelCurrent = p.runs.cancelCurrent := by
  rw [Runs.cancelCurrent_of_none (idle_dropRun hp o).current]
  rcases hp with hi | ⟨run, b, hw⟩
  · rw [dropRun_of_idle hi, Runs.cancelCurrent_of_none hi.current]
  · rw [dropRun_of_awaits hw]

theorem starts_of_tool (hp : p.InStep) {tool : String} (ht : p.settings.tool? = some tool)
    (m : Execution.Machine) (t : Trigger) : p.Starts m t tool := by
  have hq : (p.dropRun .superseded).1.settings.tool? = some tool := by rwa [dropRun_settings]
  have hstart : (p.dropRun .superseded).1.runs.start m tool t.root =
      p.runs.start m tool t.root := by
    rw [Runs.start, cancelCurrent_dropRun hp]
    rfl
  have hreplace : (p.replace m t).1.runs = (p.runs.start m tool t.root).1 ∧
      (p.replace m t).2.2 =
        (p.runs.start m tool t.root).2.mapError fun err => ⟨none, .failed (.start err)⟩ := by
    simp only [replace, supersede, startRun, hq, hstart]
    cases p.runs.start m tool t.root with
    | mk runs result => cases result <;> exact ⟨rfl, rfl⟩
  obtain ⟨hserved, hpending⟩ := handle_eq_replace p m t
  exact ⟨hreplace.1, hreplace.2, hserved, hpending⟩

end Starting

section Barren

theorem Barren.idle (hp : p.Barren) : p.Idle :=
  ⟨hp.phase, hp.awaited, by rw [hp.runs]; rfl⟩

theorem barren_new (hs : s.tool? = none) : ((new s).withSourceTest isPrimary).Barren :=
  ⟨hs, rfl, rfl, rfl, rfl⟩

theorem Barren.remember (hp : p.Barren) (document : Option Path) :
    { p with lastDocument := document }.Barren :=
  ⟨hp.tool, hp.phase, hp.awaited, hp.runs, hp.published⟩

theorem Barren.settle (hp : p.Barren) (id : RunId) : (p.settle id).Barren := by
  refine ⟨hp.tool, hp.phase, hp.awaited, ?_, hp.published⟩
  change p.runs.settle id = _
  rw [hp.runs]
  rfl

theorem startRun_of_barren (hp : p.Barren) (m : Execution.Machine) (t : Trigger) :
    p.startRun m t =
      ({ p with lastDocument := t.document.or p.lastDocument }, .error .withoutTool) := by
  have ha : p.settings.attempt m t = .error (.notFound none) := by
    rw [Settings.attempt, hp.tool]
  exact startRun_of_error hp.idle ha

theorem operate_of_barren (hp : p.Barren) (op : Operation) : (p.operate op).1.Barren ∧
    (p.operate op).2 = ⟨[], op.trigger?.toList.map fun _ => .withoutTool⟩ := by
  have hdrop (o : Outcome) : p.dropRun o = (p, .none) := dropRun_of_idle hp.idle o
  have hreplace (m : Execution.Machine) (t : Trigger) : p.replace m t =
      ({ p with lastDocument := t.document.or p.lastDocument }, [], .error .withoutTool) := by
    simp only [replace, supersede, hdrop, startRun_of_barren hp]
    rfl
  cases op with
  | run m t =>
    simp only [operate, run, hreplace]
    exact ⟨hp.remember _, rfl⟩
  | launch m t =>
    simp only [operate, launch, hreplace]
    exact ⟨hp.remember _, rfl⟩
  | cancel =>
    simp only [operate, cancel, hdrop]
    exact ⟨hp, rfl⟩
  | settle id => exact ⟨hp.settle id, rfl⟩

end Barren

end Publisher

namespace Service

variable {v : Service}

theorem step_of_barren (hp : v.publisher.Barren) (hpending : v.pending = none) (e : Event) :
    (v.step e).1.publisher.Barren ∧ (v.step e).1.pending = none ∧
      (v.step e).2 =
        ⟨[], ((v.turn? e).bind Turn.trigger?).toList.map fun _ => .withoutTool⟩ := by
  have hdrop (o : Outcome) : v.publisher.dropRun o = (v.publisher, .none) :=
    Publisher.dropRun_of_idle hp.idle o
  cases ht : v.turn? e with
  | none =>
    obtain ⟨hout, hpend, hpub⟩ := step_of_none ht
    refine ⟨?_, hpend.trans hpending, hout⟩
    rcases hpub with hpub | ⟨id, hpub⟩
    · rwa [hpub]
    · rw [hpub]
      exact hp.settle id
  | some τ =>
    obtain ⟨hend, hb⟩ := brings_of_turn? ht
    cases hb with
    | trigger m t rest hq =>
      simp only [step, next, hend, hq, Bool.false_eq_true, if_false, handle, Publisher.supersede,
        hdrop, Publisher.startRun_of_barren hp]
      exact ⟨hp.remember _, trivial, rfl⟩
    | cancel m rest hq =>
      simp only [step, next, hend, hq, Bool.false_eq_true, if_false, handle, Publisher.cancel,
        hdrop]
      exact ⟨hp, trivial, rfl⟩
    | shut m hq hopen =>
      simp only [step, next, hend, hq, hopen, Bool.false_eq_true, if_false, Publisher.cancel,
        hdrop]
      exact ⟨hp, trivial, rfl⟩
    | collect id result hid hr => cases hpending.symm.trans hid

theorem run_of_barren (hp : v.publisher.Barren) (hpending : v.pending = none) (es : List Event) :
    (v.run es).1.publisher.Barren ∧
      (v.run es).2 =
        ⟨[], ((v.turns es).filterMap Turn.trigger?).map fun _ => .withoutTool⟩ := by
  induction es generalizing v with
  | nil => exact ⟨hp, rfl⟩
  | cons e es ih =>
    obtain ⟨hp', hpending', hout⟩ := step_of_barren hp hpending e
    obtain ⟨hrun, hrest⟩ := ih hp' hpending'
    refine ⟨hrun, ?_⟩
    change (v.step e).2 ++ ((v.step e).1.run es).2 = _
    rw [hout, hrest, turns, List.filterMap_append, List.map_append]
    cases v.turn? e with
    | none => rfl
    | some τ => cases hτ : Turn.trigger? τ <;> simp [hτ] <;> rfl

end Service

theorem Publisher.barren_of_handled {s : Settings} {isPrimary : SourceTest} {p : Publisher}
    {ts : List Trigger} (hs : s.tool? = none) (hp : Handled s isPrimary p ts) : p.Barren := by
  induction hp with
  | new => exact barren_new hs
  | operate op _ ih => exact (operate_of_barren ih op).1
  | serve es _ ih => exact (Service.run_of_barren (v := Service.ofPublisher _) ih rfl es).1

namespace Config

open Publisher

/-- A configuration and an environment come to one tool or to none, and nothing else in the settings
depends on the environment. Whatever a publisher with these settings has been through, a trigger has
it start this tool. If there is none, no process was ever started, no run has a number, and every
trigger is reported on with the same failure and without an edit, whether the host drives the
publisher itself or leaves it to a service. -/
theorem starts_of_chooses (c : Config) (e : Environment) :
    (∃! tool?, c.Chooses e tool?) ∧
    c.settings e = { c.runner.getD {} with toolName := (c.settings e).toolName } ∧
    ∀ isPrimary p ts, Handled (c.settings e) isPrimary p ts →
      (∀ tool, c.Chooses e (some tool) → ∀ m t, p.Starts m t tool) ∧
      (c.Chooses e none → p.Barren ∧
        (∀ op : Operation,
          (p.operate op).2 = ⟨[], op.trigger?.toList.map fun _ => .withoutTool⟩) ∧
        ∀ es : List Service.Event, ((Service.ofPublisher p).run es).2 =
          ⟨[], (((Service.ofPublisher p).turns es).filterMap Turn.trigger?).map
            fun _ => .withoutTool⟩) := by
  obtain ⟨tool?, hchosen⟩ := exists_chooses c e
  refine ⟨⟨tool?, hchosen, fun other? hother => ?_⟩, settings_eq c e,
    fun isPrimary p ts hp => ⟨fun tool hc m t => ?_, fun hc => ?_⟩⟩
  · exact (tool?_of_chooses hother).symm.trans (tool?_of_chooses hchosen)
  · obtain ⟨store, h, ht, -⟩ := tracks_of_handled hp
    have hp := ht.follows
    exact starts_of_tool (inStep_of_flies hp.flies)
      (by rw [hp.settings, tool?_of_chooses hc]) m t
  · have hbarren := barren_of_handled (tool?_of_chooses hc) hp
    exact ⟨hbarren, fun op => (operate_of_barren hbarren op).2, fun es =>
      (Service.run_of_barren (v := Service.ofPublisher p) hbarren rfl es).2⟩

theorem starts_of_chooses_each :
    let c : Config := ⟨some { toolName := some " $\x7bHOME\x7d/stack " }⟩
    let home : Environment := ⟨[("HOME", "/h"), (Settings.toolVariable, " ")]⟩
    let fixed : Environment := ⟨[("HOME", "/h"), (Settings.toolVariable, "$\x7bHOME\x7d\t")]⟩
    let unset : Environment := ⟨[("HOME", " ")]⟩
    let bare : Config := ⟨some { toolName := some "$\x7bHOME\x7d" }⟩
    let p (s : Settings) := (new s).withSourceTest fun _ => true
    let m := Sample.machine Sample.hanging
    (p (c.settings home)).Starts m Sample.trigger "/h/stack" ∧
    (p (c.settings fixed)).Starts m Sample.trigger "$\x7bHOME\x7d" ∧
    ((Service.ofPublisher (p (bare.settings unset))).run
      [.send (.trigger Sample.trigger), .next m]).2 = ⟨[], [.withoutTool]⟩ := by
  intro c home fixed unset bare p m
  have hhome : c.Chooses home (some "/h/stack") := by
    have hvariable : home.get? Settings.toolVariable = some " " := by decide
    have hname : Text.trimmed (Expansion.expand home " $\x7bHOME\x7d/stack ") = "/h/stack" := by
      decide
    rw [← hname]
    refine .configured (fun value hvalue => ?_) rfl (by decide)
    rw [hvariable] at hvalue
    cases hvalue
    decide
  have hfixed : c.Chooses fixed (some "$\x7bHOME\x7d") := by
    have hname : Text.trimmed "$\x7bHOME\x7d\t" = "$\x7bHOME\x7d" := by decide
    rw [← hname]
    exact .overridden (by decide) (by decide)
  have hbare : bare.Chooses unset none := by
    have hvariable : unset.get? Settings.toolVariable = none := by decide
    refine .missing (fun value hvalue => ?_) (fun text htext => ?_)
    · rw [hvariable] at hvalue
      cases hvalue
    · cases htext
      decide
  obtain ⟨-, -, hhandled⟩ := starts_of_chooses c home
  obtain ⟨-, -, hhandled'⟩ := starts_of_chooses c fixed
  obtain ⟨-, -, hhandled''⟩ := starts_of_chooses bare unset
  refine ⟨(hhandled _ _ _ .new).1 _ hhome m Sample.trigger,
    (hhandled' _ _ _ .new).1 _ hfixed m Sample.trigger, ?_⟩
  exact ((hhandled'' _ _ _ .new).2 hbare).2.2 _

end Config

end BuildWatch
