import BuildWatch.Proofs.Aggregation
import BuildWatch.Proofs.Effect
import BuildWatch.Proofs.Failing
import BuildWatch.Proofs.Service.Dropped

namespace BuildWatch

open Record

def Record.reported (records : List Record) (keep : Path → Bool) (file : Path) : Bool :=
  records.any fun r => r.path.same file && keep r.path

/-- What the records of a run do to the files `before` that are published, if those files are in
scope that `keep` accepts. The files `after` are published then. -/
structure Publication (isPrimary : SourceTest) (records : List Record) (keep : Path → Bool)
    (before : List Path) (edits : List Edit) (after : List Path) : Prop where
  edits_eq : edits = (before.filter fun file => !reported records keep file).map .erase ++
    after.map fun file => .set file ((ofFile records file).map (diagnostic isPrimary))
  erased : (before.filter fun file => !reported records keep file).Pairwise
    fun a b => compare a b = .lt
  ordered : after.Pairwise fun a b => compare a b = .lt
  complete : ∀ file : Path,
    file.components ∈ after.map Path.components ↔ reported records keep file = true
  full : ∀ file ∈ after, ofFile records file ≠ []
  spelled : ∀ file ∈ after, spelling records file = file
  once : (edits.map fun e => e.file?.map Path.components).Nodup
  apart : ∀ p q ds, Edit.erase p ∈ edits → Edit.set q ds ∈ edits → p.components ≠ q.components

namespace DiagnosticMap

variable {isPrimary : SourceTest} {records : List Record} {keep : Path → Bool}

theorem contains_iff {s : DiagnosticMap} {file : Path} :
    s.contains file = true ↔ file.components ∈ s.paths.map Path.components := by
  simp [contains, FileMap.contains, paths, FileMap.keys, Path.same]

theorem contains_retain_ofRecords
    (hkeep : ∀ {p q : Path}, p.components = q.components → keep p = keep q) (file : Path) :
    ((ofRecords isPrimary records).retain keep).contains file = reported records keep file := by
  rw [Bool.eq_iff_iff, contains_iff, reported, List.any_eq_true]
  constructor
  · intro hmem
    obtain ⟨k, hk, hfile⟩ := List.mem_map.mp hmem
    obtain ⟨e, he, rfl⟩ := List.mem_map.mp hk
    obtain ⟨he, hke⟩ := List.mem_filter.mp he
    obtain ⟨r, hr, hpath⟩ := key_ofRecords he
    refine ⟨r, List.mem_of_find?_eq_some hr, ?_⟩
    rw [hpath, hke, Bool.and_true, Path.same, decide_eq_true_iff, hfile]
  · rintro ⟨r, hr, hand⟩
    obtain ⟨hsame, hkr⟩ := Bool.and_eq_true_iff.mp hand
    have hkey : r.path.components ∈
        (ofRecords isPrimary records).files.entries.map (·.1.components) := mem_keys_ofRecords hr
    obtain ⟨e, he, hpath⟩ := List.mem_map.mp hkey
    have hke : keep e.1 = true := (hkeep hpath).trans hkr
    rw [← of_decide_eq_true hsame, ← hpath]
    exact List.mem_map_of_mem (List.mem_map_of_mem (List.mem_filter.mpr ⟨he, hke⟩))

theorem paths_retain_ofRecords {file : Path}
    (h : file ∈ ((ofRecords isPrimary records).retain keep).paths) :
    ofFile records file ≠ [] ∧ spelling records file = file := by
  obtain ⟨e, he, rfl⟩ := List.mem_map.mp h
  have he : e ∈ (ofRecords isPrimary records).files.entries := (List.mem_filter.mp he).1
  refine ⟨fun hnil => ?_, spelling_of_same he rfl⟩
  have hempty := value_ofRecords he
  rw [hnil] at hempty
  exact (sound_ofRecords isPrimary records).full e he hempty

theorem sets_retain_ofRecords :
    (((ofRecords isPrimary records).retain keep).toList.map fun e => Edit.set e.1 e.2) =
      ((ofRecords isPrimary records).retain keep).paths.map fun file =>
        .set file ((ofFile records file).map (diagnostic isPrimary)) := by
  refine Eq.trans ?_ List.map_map.symm
  refine List.map_congr_left fun e he => congrArg (Edit.set e.1) ?_
  exact value_ofRecords (List.mem_filter.mp he).1

end DiagnosticMap

section Apart

variable {erased set : List Path} {value : Path → List Diagnostic}

theorem nodup_files (herased : (erased.map Path.components).Nodup)
    (hset : (set.map Path.components).Nodup)
    (h : ∀ p ∈ erased, ∀ q ∈ set, p.components ≠ q.components) :
    ((erased.map Edit.erase ++ set.map fun file => Edit.set file (value file)).map
      fun e => e.file?.map Path.components).Nodup := by
  have hall : ((erased.map Path.components) ++ set.map Path.components).Nodup := by
    refine List.nodup_append.mpr ⟨herased, hset, fun a ha b hb => ?_⟩
    obtain ⟨p, hp, rfl⟩ := List.mem_map.mp ha
    obtain ⟨q, hq, rfl⟩ := List.mem_map.mp hb
    exact h p hp q hq
  have hsome : (((erased.map Path.components) ++ set.map Path.components).map some).Nodup :=
    List.Pairwise.map some (fun _ _ hne he => hne (Option.some.inj he)) hall
  rw [List.map_append, List.map_map, List.map_map] at hsome ⊢
  exact hsome

theorem apart_of_mem (h : ∀ p ∈ erased, ∀ q ∈ set, p.components ≠ q.components) {p q : Path}
    {ds : List Diagnostic}
    (hp : Edit.erase p ∈ erased.map Edit.erase ++ set.map fun file => Edit.set file (value file))
    (hq : Edit.set q ds ∈ erased.map Edit.erase ++ set.map fun file => Edit.set file (value file)) :
    p.components ≠ q.components := by
  simp only [List.mem_append, List.mem_map, Edit.erase.injEq, exists_eq_right, reduceCtorEq,
    and_false, exists_false, or_false, false_or, Edit.set.injEq] at hp hq
  obtain ⟨_, hq, rfl, -⟩ := hq
  exact h p hp _ hq

end Apart

theorem publication_of_records (isPrimary : SourceTest) (records : List Record)
    {keep : Path → Bool} (hkeep : ∀ {p q : Path}, p.components = q.components → keep p = keep q)
    {before : List Path} (hbefore : before.Pairwise fun a b => compare a b = .lt) :
    let set := (DiagnosticMap.ofRecords isPrimary records).retain keep
    Publication isPrimary records keep before
      ((before.filter fun file => !set.contains file).map .erase ++
        set.toList.map fun e => .set e.1 e.2) set.paths := by
  intro set
  have hcontains : ∀ file, set.contains file = reported records keep file :=
    DiagnosticMap.contains_retain_ofRecords hkeep
  have hsound : set.Sound :=
    DiagnosticMap.sound_retain (DiagnosticMap.sound_ofRecords isPrimary records) keep
  have hordered : set.paths.Pairwise fun a b => compare a b = .lt :=
    List.pairwise_map.mpr hsound.sorted
  have hcomplete : ∀ file : Path,
      file.components ∈ set.paths.map Path.components ↔ reported records keep file = true := by
    intro file
    rw [← hcontains]
    exact DiagnosticMap.contains_iff.symm
  have herased := hbefore.filter fun file => !reported records keep file
  have hapart : ∀ p ∈ before.filter fun file => !reported records keep file,
      ∀ q ∈ set.paths, p.components ≠ q.components := by
    intro p hp q hq hpq
    have hrep := (hcomplete p).mp (hpq ▸ List.mem_map_of_mem hq)
    have hno := (List.mem_filter.mp hp).2
    rw [hrep] at hno
    cases hno
  have hsets : (set.toList.map fun e => Edit.set e.1 e.2) =
      set.paths.map fun file => .set file ((ofFile records file).map (diagnostic isPrimary)) :=
    DiagnosticMap.sets_retain_ofRecords
  simp only [hcontains, hsets]
  exact {
    edits_eq := rfl
    erased := herased
    ordered := hordered
    complete := hcomplete
    full := fun _ hfile => (DiagnosticMap.paths_retain_ofRecords hfile).1
    spelled := fun _ hfile => (DiagnosticMap.paths_retain_ofRecords hfile).2
    once := nodup_files (Path.nodup_of_ascending herased) (Path.nodup_of_ascending hordered) hapart
    apart := fun _ _ _ => apart_of_mem hapart }

namespace Publisher

variable {s : Settings} {isPrimary : SourceTest} {p : Publisher} {h : History}

theorem publication_of_publish (p : Publisher)
    (hp : p.published.Pairwise fun a b => compare a b = .lt) (records : List Record)
    (run : AwaitedRun) :
    Publication p.isPrimary records (p.settings.scope.accepts run.root run.document) p.published
      (p.publish records run).2.1 (p.publish records run).1.published :=
  publication_of_records p.isPrimary records Scope.accepts_congr hp

theorem run_of_result_ok (hp : p.Follows s isPrimary h) {m : Execution.Machine} {t : Trigger}
    {b : Execution.Behaviour} {records : List Record} (ha : s.attempt m t = .ok b)
    (hb : b.result? s.limit = some (.ok records)) :
    ∃ (q : Publisher) (id : RunId),
      let run : AwaitedRun := ⟨id, t.root, t.document.or p.lastDocument⟩
      (p.run m t).1 = (q.publish records run).1 ∧
      (p.run m t).2.edits = (p.dropRun .superseded).2.edits ++ (q.publish records run).2.1 ∧
      q.settings = s ∧ q.isPrimary = isPrimary ∧
      q.published = (p.dropRun .superseded).1.published := by
  have hq := follows_settle (follows_took hp m t) ⟨h.issued s + 1⟩
  have hw := awaits_settle (awaits_started hp ha) ⟨h.issued s + 1⟩
  have hdoc : History.document (.took m t :: h) = t.document.or p.lastDocument := by
    rw [hp.document]
    rfl
  have hpub : (p.turn (.took m t)).1.published = (p.dropRun .superseded).1.published := by
    rw [turn_took_of_ok (inStep_of_flies hp.flies) (by rwa [hp.settings])]
    rfl
  rw [hdoc] at hw
  rw [run_of_ok hp ha, collect, result?_started hp ha, hb, (output_took hp m t).1]
  dsimp only
  rw [conclude_of_ok hw]
  exact ⟨((p.turn (.took m t)).1.settle ⟨h.issued s + 1⟩).released ⟨h.issued s + 1⟩, _, rfl, rfl,
    hq.settings, hq.source, hpub⟩

theorem publication_of_run (hp : p.Follows s isPrimary h)
    (hasc : p.published.Pairwise fun a b => compare a b = .lt) {m : Execution.Machine}
    {t : Trigger} {b : Execution.Behaviour} {records : List Record} (ha : s.attempt m t = .ok b)
    (hb : b.result? s.limit = some (.ok records)) :
    ∃ edits, (p.run m t).2.edits = (p.dropRun .superseded).2.edits ++ edits ∧
      Publication isPrimary records (s.scope.accepts t.root (t.document.or p.lastDocument))
        (p.dropRun .superseded).1.published edits (p.run m t).1.published := by
  obtain ⟨q, id, hrun, hedits, rfl, rfl, hpub⟩ := run_of_result_ok hp ha hb
  have hq : q.published.Pairwise fun a b => compare a b = .lt := by
    rw [hpub]
    rcases p.dropRun_cases .superseded with hd | ⟨-, hd⟩
    · rwa [hd]
    · rw [hd]
      exact List.Pairwise.nil
  refine ⟨_, hedits, ?_⟩
  rw [hrun, ← hpub]
  exact q.publication_of_publish hq records ⟨id, t.root, t.document.or p.lastDocument⟩

end Publisher

namespace Service

variable {s : Settings} {isPrimary : SourceTest} {v : Service} {h : History} {store : Store}

theorem collect_of_holds (hv : v.Follows s isPrimary h) (hend : v.hasEnded = false)
    {run : AwaitedRun} {records : List Record} (hr : v.Holds run records) :
    ∃ q : Publisher,
      (v.step .collect).1.publisher = (q.publish records run).1 ∧
      (v.step .collect).2.edits = (q.publish records run).2.1 ∧
      q.settings = s ∧ q.isPrimary = isPrimary ∧ q.published = v.publisher.published := by
  obtain ⟨b, hb⟩ :=
    Publisher.awaits_of_awaited (Publisher.inStep_of_flies hv.publisher.flies) hr.awaited
  simp only [step, collect, hend, hr.pending, hr.result, Bool.false_eq_true, if_false,
    Publisher.conclude_of_ok hb]
  exact ⟨v.publisher.released run.id, rfl, rfl, hv.publisher.settings, hv.publisher.source, rfl⟩

theorem publication_of_holds (hv : v.Follows s isPrimary h)
    (hd : store.Displays s isPrimary v.publisher h) (hend : v.hasEnded = false) {run : AwaitedRun}
    {records : List Record} (hr : v.Holds run records) :
    Publication isPrimary records (s.scope.accepts run.root run.document) v.publisher.published
      (v.step .collect).2.edits (v.step .collect).1.publisher.published := by
  obtain ⟨q, hq, hedits, rfl, rfl, hpub⟩ := collect_of_holds hv hend hr
  have hasc := Publisher.ascending_published hd
  rw [← hpub] at hasc ⊢
  rw [hq, hedits]
  exact q.publication_of_publish hasc records run

end Service

namespace Publisher

variable {s : Settings} {isPrimary : SourceTest} {p : Publisher}

/-- A publication first erases the published files that have no record in scope any more, and then
sets each file with one to all that is told of it, both in path order. However the paths are
spelled, no file is named twice, and just those that were set are published afterwards. This is what
publishing comes to from any published files, and so it is for a run that succeeds, after the run in
flight, if there is one, has been dropped with all that was published; and for a service that takes
the records of its run. -/
theorem publication_of_success (hp : Reachable s isPrimary p) :
    (∀ (q : Publisher) (records : List Record) (run : AwaitedRun),
      q.published.Pairwise (fun a b => compare a b = .lt) →
        Publication q.isPrimary records (q.settings.scope.accepts run.root run.document)
          q.published (q.publish records run).2.1 (q.publish records run).1.published) ∧
    (∀ m t b records, s.attempt m t = .ok b → b.result? s.limit = some (.ok records) →
      let keep := s.scope.accepts t.root (t.document.or p.lastDocument)
      let after := (p.run m t).1.published
      (p.awaited = none →
        Publication isPrimary records keep p.published (p.run m t).2.edits after) ∧
      (p.awaited ≠ none → ∃ edits, (p.run m t).2.edits = p.published.map .erase ++ edits ∧
        Publication isPrimary records keep [] edits after)) ∧
    ∀ es run records,
      let v := ((Service.ofPublisher p).run es).1
      v.hasEnded = false → v.Holds run records →
        Publication isPrimary records (s.scope.accepts run.root run.document) v.publisher.published
          (v.step .collect).2.edits (v.step .collect).1.publisher.published := by
  obtain ⟨store, h, ht⟩ := tracks_of_reachable hp
  have hasc := ascending_published ht.displays
  refine ⟨fun q records run hq => q.publication_of_publish hq records run,
    fun m t b records ha hb => ⟨fun hn => ?_, fun hne => ?_⟩, fun es run records => ?_⟩
  · obtain ⟨edits, hedits, hpub⟩ := publication_of_run ht.follows hasc ha hb
    have hdrop : p.dropRun .superseded = (p, .none) := by rw [dropRun, hn]
    rw [hdrop] at hedits hpub
    rw [hedits]
    exact hpub
  · obtain ⟨edits, hedits, hpub⟩ := publication_of_run ht.follows hasc ha hb
    obtain ⟨run, hrun⟩ := Option.ne_none_iff_exists'.mp hne
    have hdrop : (p.dropRun .superseded).2.edits = p.published.map .erase ∧
        (p.dropRun .superseded).1.published = [] := by
      rw [dropRun, hrun]
      exact ⟨rfl, rfl⟩
    rw [hdrop.1] at hedits
    rw [hdrop.2] at hpub
    exact ⟨edits, hedits, hpub⟩
  · intro v hend hr
    have hv := Service.follows_ofPublisher ht.follows
    exact Service.publication_of_holds (Service.follows_run hv es)
      (Service.displays_run hv ht.displays es) hend hr

def usedOnce : Publisher :=
  (((new { Sample.settings with scope := .all }).withSourceTest fun _ => true).operate
    (.run (Sample.telling "[[\"A\",1,0],[\"B\",1,0]]") Sample.trigger)).1

theorem publication_of_success_respelled :
    let next := usedOnce.run (Sample.telling "[[\"A/\",2,0]]") Sample.trigger
    usedOnce.published = [⟨"A"⟩, ⟨"B"⟩] ∧ next.1.published = [⟨"A/"⟩] ∧
      next.2.edits.map Edit.file? = [some ⟨"B"⟩, some ⟨"A/"⟩] := by
  intro next
  have hnew : Reachable { Sample.settings with scope := .all } (fun _ => true) _ := .new
  have hp : Reachable { Sample.settings with scope := .all } (fun _ => true) usedOnce :=
    hnew.operate _
  obtain ⟨-, hrun, -⟩ := publication_of_success hp
  have hpub := (hrun (Sample.telling "[[\"A/\",2,0]]") Sample.trigger _ [⟨"A/", 2, 0, "", []⟩]
    rfl rfl).1 rfl
  have hbefore : usedOnce.published = [⟨"A"⟩, ⟨"B"⟩] := rfl
  have hafter : next.1.published = [⟨"A/"⟩] := rfl
  have hedits : next.2.edits = _ := hpub.edits_eq
  rw [hbefore, hafter] at hedits
  refine ⟨hbefore, hafter, ?_⟩
  rw [hedits]
  rfl

end Publisher

end BuildWatch
