import BuildWatch.Proofs.Scope
import BuildWatch.Proofs.Service.InStep

namespace BuildWatch

def Operation.trigger? : Operation → Option Trigger
  | .run _ t => some t
  | .launch _ t => some t
  | _ => none

def Turn.trigger? : Turn → Option Trigger
  | .took _ t => some t
  | _ => none

def History.triggers (h : History) : List Trigger := h.filterMap Turn.trigger?

namespace History

theorem triggers_append (g h : History) : triggers (g ++ h) = triggers g ++ triggers h :=
  List.filterMap_append

theorem newest_cons (t : Trigger) (ts : List Trigger) :
    (t :: ts).findSome? Trigger.document = t.document.or (ts.findSome? Trigger.document) := by
  rw [List.findSome?_cons]
  cases t.document <;> rfl

theorem document_eq (h : History) : h.document = h.triggers.findSome? Trigger.document := by
  induction h with
  | nil => rfl
  | cons τ h ih =>
    cases τ with
    | took m t =>
      rw [document, ih]
      exact (newest_cons t (triggers h)).symm
    | stopped | finished | shut => exact ih

theorem run_of_inFlight {s : Settings} {h : History} {f : Flight} (hf : h.inFlight s = some f) :
    ∃ t earlier, h.triggers = t :: earlier ∧ f.run.root = t.root ∧
      f.run.document = h.triggers.findSome? Trigger.document := by
  cases h with
  | nil => cases hf
  | cons τ h =>
    cases τ with
    | stopped | finished | shut => cases hf
    | took m t =>
      cases ha : s.attempt m t with
      | error e =>
        rw [inFlight_took_of_error ha] at hf
        cases hf
      | ok b =>
        rw [inFlight_took_of_ok ha] at hf
        obtain rfl := Option.some.inj hf
        exact ⟨t, triggers h, rfl, rfl, document_eq (.took m t :: h)⟩

end History

/-- A publisher whose host had it take some triggers, the newest of which comes first in the list:
it drove the publisher itself, or gave it to a service, which may have it still. -/
inductive Publisher.Handled (s : Settings) (isPrimary : SourceTest) :
    Publisher → List Trigger → Prop where
  | new : Handled s isPrimary ((Publisher.new s).withSourceTest isPrimary) []
  | operate {p : Publisher} {ts : List Trigger} (op : Operation) :
    Handled s isPrimary p ts → Handled s isPrimary (p.operate op).1 (op.trigger?.toList ++ ts)
  | serve {p : Publisher} {ts : List Trigger} (es : List Service.Event) :
    Handled s isPrimary p ts →
      Handled s isPrimary ((Service.ofPublisher p).run es).1.publisher
        (History.triggers ((Service.ofPublisher p).turns es).reverse ++ ts)

/-- What is published of the records of a run for `t` in document scope, after the `earlier`
triggers, the newest of which comes first: what is in the document of `t`, or else in the newest
document before it, or else in the workspace. -/
structure ForDocument (isPrimary : SourceTest) (records : List Record) (t : Trigger)
    (earlier : List Trigger) (edits : List Edit) (after : List Path) : Prop where
  own : ∀ document, t.document = some document →
    Selection isPrimary records (fun file => file.same document = true) edits after
  newest : ∀ document, t.document = none →
    earlier.findSome? Trigger.document = some document →
      Selection isPrimary records (fun file => file.same document = true) edits after
  workspace : (∀ u ∈ t :: earlier, u.document = none) →
    Selection isPrimary records (fun file => file.isUnder t.root = true) edits after

section Selection

variable {isPrimary : SourceTest} {records : List Record} {chosen : Path → Prop}
  {edits erased : List Edit} {after : List Path}

theorem Selection.after_erasing (h : Selection isPrimary records chosen edits after)
    (he : ∀ e ∈ erased, ∃ file, e = .erase file) :
    Selection isPrimary records chosen (erased ++ edits) after := by
  refine ⟨fun r hr => ?_, h.listed⟩
  rw [← h.told r hr]
  constructor
  · rintro ⟨file, ds, hset, hrest⟩
    refine ⟨file, ds, (List.mem_append.mp hset).resolve_left fun hmem => ?_, hrest⟩
    obtain ⟨_, hfile⟩ := he _ hmem
    cases hfile
  · rintro ⟨file, ds, hset, hrest⟩
    exact ⟨file, ds, List.mem_append_right _ hset, hrest⟩

theorem forDocument_of_selection {t : Trigger} {earlier : List Trigger}
    (h : Selection isPrimary records
      (fun file => Scope.document.accepts t.root ((t :: earlier).findSome? Trigger.document) file)
      edits after) :
    ForDocument isPrimary records t earlier edits after := by
  refine ⟨fun document ht => ?_, fun document ht hnewest => ?_, fun hnone => ?_⟩
  · rw [List.findSome?_cons, ht] at h
    exact h
  · rw [List.findSome?_cons, ht, hnewest] at h
    exact h
  · rw [List.findSome?_eq_none_iff.mpr hnone] at h
    exact h

end Selection

namespace Publisher

variable {s : Settings} {isPrimary : SourceTest} {p : Publisher} {h : History} {ts : List Trigger}

theorem selection_of_run (hp : p.Follows s isPrimary h) {m : Execution.Machine} {t : Trigger}
    {b : Execution.Behaviour} {records : List Record} (ha : s.attempt m t = .ok b)
    (hb : b.result? s.limit = some (.ok records)) :
    Selection isPrimary records
      (fun file => s.scope.accepts t.root (t.document.or p.lastDocument) file = true)
      (p.run m t).2.edits (p.run m t).1.published := by
  obtain ⟨q, id, hrun, hedits, rfl, rfl, -⟩ := run_of_result_ok hp ha hb
  rw [hrun, hedits]
  exact (q.selection_of_publish records ⟨id, t.root, t.document.or p.lastDocument⟩).after_erasing
    (p.silent_dropRun (by nofun)).erases

theorem triggers_turns (op : Operation) :
    History.triggers (op.turns s) = op.trigger?.toList := by
  cases op with
  | run m t =>
    rw [Operation.turns]
    split <;> rfl
  | launch m t => rfl
  | cancel => rfl
  | settle id => rfl

theorem tracks_of_handled (hp : Handled s isPrimary p ts) :
    ∃ store h, Tracks s isPrimary store p h ∧ h.triggers = ts := by
  induction hp with
  | new => exact ⟨Store.empty, [], ⟨follows_new s isPrimary, displays_new s isPrimary⟩, rfl⟩
  | operate op _ ih =>
    obtain ⟨store, h, ht, rfl⟩ := ih
    refine ⟨_, _, tracks_operate ht op, ?_⟩
    rw [History.triggers_append, triggers_turns]
  | serve es _ ih =>
    obtain ⟨store, h, ht, rfl⟩ := ih
    have hv := Service.follows_ofPublisher ht.follows
    refine ⟨_, _, ⟨(Service.follows_run hv es).publisher,
      Service.displays_run hv ht.displays es⟩, ?_⟩
    exact History.triggers_append _ h

end Publisher

namespace Service

variable {s : Settings} {isPrimary : SourceTest} {v : Service} {h : History}

theorem selection_of_holds (hv : v.Follows s isPrimary h) (hend : v.hasEnded = false)
    {run : AwaitedRun} {records : List Record} (hr : v.Holds run records) :
    Selection isPrimary records
      (fun file => s.scope.accepts run.root run.document file = true)
      (v.step .collect).2.edits (v.step .collect).1.publisher.published := by
  obtain ⟨q, hq, hedits, rfl, rfl, -⟩ := collect_of_holds hv hend hr
  rw [hq, hedits]
  exact q.selection_of_publish records run

end Service

namespace Publisher

variable {s : Settings} {isPrimary : SourceTest} {p : Publisher} {ts : List Trigger}

/-- A publisher remembers the document of the newest trigger that had one. The run in flight is that
of the newest trigger, and it is for the document that was remembered then. In document scope it is
this document that the records of a run are chosen by, whether the host waits for the run itself or
a service takes its records. The workspace decides just as long as no trigger had a document. -/
theorem document_of_handled (hp : Handled s isPrimary p ts) :
    p.lastDocument = ts.findSome? Trigger.document ∧
    (∀ run, p.awaited = some run → ∃ t earlier, ts = t :: earlier ∧ run.root = t.root ∧
      run.document = ts.findSome? Trigger.document ∧
      (run.document = none ↔ ∀ u ∈ ts, u.document = none)) ∧
    (s.scope = .document →
      (∀ m t b records, s.attempt m t = .ok b → b.result? s.limit = some (.ok records) →
        ForDocument isPrimary records t ts (p.run m t).2.edits (p.run m t).1.published) ∧
      ∀ es run records,
        let v := ((Service.ofPublisher p).run es).1
        v.hasEnded = false → v.Holds run records →
          ∃ t earlier, History.triggers ((Service.ofPublisher p).turns es).reverse ++ ts =
              t :: earlier ∧
            ForDocument isPrimary records t earlier (v.step .collect).2.edits
              (v.step .collect).1.publisher.published) := by
  obtain ⟨store, h, ht, rfl⟩ := tracks_of_handled hp
  have hp := ht.follows
  refine ⟨hp.document.trans h.document_eq, fun run hrun => ?_, fun hs =>
    ⟨fun m t b records ha hb => ?_, fun es run records => ?_⟩⟩
  · rw [awaited_of_flies hp.flies] at hrun
    obtain ⟨f, hf, rfl⟩ := Option.map_eq_some_iff.mp hrun
    obtain ⟨t, earlier, hts, hroot, hdocument⟩ := History.run_of_inFlight hf
    exact ⟨t, earlier, hts, hroot, hdocument, by rw [hdocument, List.findSome?_eq_none_iff]⟩
  · have hrun := selection_of_run hp ha hb
    rw [hs, hp.document, h.document_eq, ← History.newest_cons] at hrun
    exact forDocument_of_selection hrun
  · intro v hend hr
    have hv := Service.follows_run (Service.follows_ofPublisher hp) es
    obtain ⟨f, hf, rfl⟩ := Service.flight_of_awaited hv hr.awaited
    obtain ⟨t, earlier, hts, hroot, hdocument⟩ := History.run_of_inFlight hf
    have hrun := Service.selection_of_holds hv hend hr
    rw [hs, hroot, hdocument, hts] at hrun
    exact ⟨t, earlier, by rw [← hts, History.triggers_append], forDocument_of_selection hrun⟩

theorem document_of_handled_after_failure :
    let s := { Sample.settings with scope := .document }
    let saved : Trigger := ⟨.saved, ⟨"/w"⟩, some ⟨"/w/A"⟩⟩
    let tool := Sample.machine Sample.hanging
    let p := (((new s).withSourceTest fun _ => true).drive
      [.run { tool with searchPath := [] } saved, .launch tool Sample.trigger]).1
    let ran := p.run (Sample.telling "[[\"/w/A\",1,0],[\"/w/B\",1,0]]") Sample.trigger
    p.lastDocument = some ⟨"/w/A"⟩ ∧ p.awaited.isSome ∧
      (Sample.problem "/w/A").Told (fun _ => true) ran.2.edits ∧
      ¬(Sample.problem "/w/B").Told (fun _ => true) ran.2.edits := by
  intro s saved tool p ran
  have hnew : Handled s (fun _ => true) ((new s).withSourceTest fun _ => true) [] := .new
  have hp : Handled s (fun _ => true) p [Sample.trigger, saved] :=
    (hnew.operate (.run { tool with searchPath := [] } saved)).operate (.launch tool Sample.trigger)
  obtain ⟨hlast, -, hrun⟩ := document_of_handled hp
  have hran : Selection (fun _ => true) (["/w/A", "/w/B"].map Sample.problem)
      (fun file => file.same ⟨"/w/A"⟩ = true) ran.2.edits ran.1.published :=
    ((hrun rfl).1 _ _ _ _ rfl rfl).newest ⟨"/w/A"⟩ rfl rfl
  have hflight : p.awaited.isSome := rfl
  have hA := hran.told (Sample.problem "/w/A") List.mem_cons_self
  have hB := hran.told (Sample.problem "/w/B") (List.mem_cons_of_mem _ List.mem_cons_self)
  exact ⟨hlast, hflight, hA.mpr (by decide), fun h => absurd (hB.mp h) (by decide)⟩

end Publisher

end BuildWatch
