import BuildWatch.Proofs.Publication
import BuildWatch.Proofs.Resolution
import Mathlib.Data.List.Dedup

namespace BuildWatch

namespace DiagnosticMap

variable {isPrimary : SourceTest} {records : List Record} {keep : Path → Bool}

theorem retain_push (hkeep : ∀ {p q : Path}, p.components = q.components → keep p = keep q)
    {s : DiagnosticMap} (hs : s.Sound) (file : Path) (d : Diagnostic) :
    (s.push file d).retain keep =
      if keep file then (s.retain keep).push file d else s.retain keep := by
  have hfilter := FileMap.filter_alterEntries hkeep file (fun ds => ds.getD [] ++ [d]) hs.sorted
  rw [push, retain, FileMap.filter, FileMap.alter, hfilter]
  cases keep file <;> rfl

/-- To group and then choose among the files is to choose among the records and then group. The
spellings of the files are the same too. -/
theorem retain_ofRecords (hkeep : ∀ {p q : Path}, p.components = q.components → keep p = keep q)
    (isPrimary : SourceTest) (records : List Record) :
    (ofRecords isPrimary records).retain keep =
      ofRecords isPrimary (records.filter fun r => keep r.path) := by
  induction records using List.reverseRecOn with
  | nil => rfl
  | append_singleton records r ih =>
    have hs := sound_ofRecords isPrimary records
    rw [ofRecords_append, retain_push hkeep hs, ih, List.filter_append, List.filter_singleton]
    cases keep r.path with
    | true => exact (ofRecords_append ..).symm
    | false => exact congrArg (ofRecords isPrimary) (List.append_nil _).symm

theorem size_ofRecords (isPrimary : SourceTest) (records : List Record) :
    (ofRecords isPrimary records).size =
      (records.map fun r => r.path.components).dedup.length := by
  have hkeys : ((ofRecords isPrimary records).files.entries.map (·.1.components)).Perm
      (records.map fun r => r.path.components).dedup := by
    have hordered : (ofRecords isPrimary records).paths.Pairwise fun a b => compare a b = .lt :=
      List.pairwise_map.mpr (sound_ofRecords isPrimary records).sorted
    have hnodup := Path.nodup_of_ascending hordered
    rw [paths, FileMap.keys, List.map_map] at hnodup
    refine (List.perm_ext_iff_of_nodup hnodup (List.nodup_dedup _)).mpr fun file => ?_
    rw [List.mem_dedup]
    constructor
    · intro hfile
      obtain ⟨e, he, rfl⟩ := List.mem_map.mp hfile
      obtain ⟨r, hr, hpath⟩ := key_ofRecords he
      exact List.mem_map.mpr ⟨r, List.mem_of_find?_eq_some hr, congrArg Path.components hpath⟩
    · intro hfile
      obtain ⟨r, hr, rfl⟩ := List.mem_map.mp hfile
      exact mem_keys_ofRecords hr
  have hlength := hkeys.length_eq
  rwa [List.length_map] at hlength

end DiagnosticMap

/-- Edits tell of a record if they set its file to some diagnostics with its own among them. -/
def Record.Told (isPrimary : SourceTest) (edits : List Edit) (r : Record) : Prop :=
  ∃ file ds, Edit.set file ds ∈ edits ∧ file.same r.path = true ∧ r.diagnostic isPrimary ∈ ds

/-- The records whose files are chosen are told of, and those files are published then. So it is for
no other records. -/
structure Selection (isPrimary : SourceTest) (records : List Record) (chosen : Path → Prop)
    (edits : List Edit) (after : List Path) : Prop where
  told : ∀ r ∈ records, r.Told isPrimary edits ↔ chosen r.path
  listed : ∀ r ∈ records, (∃ file ∈ after, file.same r.path = true) ↔ chosen r.path

namespace Publisher

open DiagnosticMap Record

theorem reported_iff {records : List Record} {keep : Path → Bool}
    (hkeep : ∀ {p q : Path}, p.components = q.components → keep p = keep q) {r : Record}
    (hr : r ∈ records) : reported records keep r.path = true ↔ keep r.path = true := by
  rw [reported, List.any_eq_true]
  constructor
  · rintro ⟨r', -, hand⟩
    obtain ⟨hsame, hk⟩ := Bool.and_eq_true_iff.mp hand
    rw [← hkeep (of_decide_eq_true hsame), hk]
  · intro hk
    exact ⟨r, hr, by simp [Path.same, hk]⟩

variable (p : Publisher) (records : List Record) (run : AwaitedRun)

theorem edits_publish :
    (p.publish records run).2.1 =
      (p.published.filter fun file => !(p.visible records run).contains file).map .erase ++
        (p.visible records run).paths.map fun file =>
          .set file ((ofFile records file).map (diagnostic p.isPrimary)) :=
  congrArg _ sets_retain_ofRecords

theorem selection_of_publish :
    Selection p.isPrimary records
      (fun file => p.settings.scope.accepts run.root run.document file = true)
      (p.publish records run).2.1 (p.publish records run).1.published := by
  have hlisted : ∀ r ∈ records,
      (∃ file ∈ (p.visible records run).paths, file.same r.path = true) ↔
        p.settings.scope.accepts run.root run.document r.path = true := by
    intro r hr
    have hcontains : (p.visible records run).contains r.path =
        reported records (p.settings.scope.accepts run.root run.document) r.path :=
      contains_retain_ofRecords Scope.accepts_congr r.path
    rw [← reported_iff Scope.accepts_congr hr, ← hcontains, contains_iff, List.mem_map]
    simp only [Path.same, decide_eq_true_iff]
  refine ⟨fun r hr => ?_, hlisted⟩
  rw [← hlisted r hr, Told, edits_publish]
  constructor
  · rintro ⟨file, ds, hset, hsame, -⟩
    simp only [List.mem_append, List.mem_map, reduceCtorEq, and_false, exists_false, false_or,
      Edit.set.injEq] at hset
    obtain ⟨_, hfile, rfl, -⟩ := hset
    exact ⟨_, hfile, hsame⟩
  · rintro ⟨file, hfile, hsame⟩
    refine ⟨file, _, List.mem_append_right _ (List.mem_map_of_mem hfile), hsame, ?_⟩
    exact List.mem_map_of_mem (mem_ofFile.mpr ⟨hr, (of_decide_eq_true hsame).symm⟩)

/-- The records in scope, grouped by file, are what is published, and the summary counts them. The
records that its message calls out of scope are all the others. -/
theorem publish_in_scope :
    let accepts := p.settings.scope.accepts run.root run.document
    let inside := records.filter fun r => accepts r.path
    let outside := records.filter fun r => !accepts r.path
    let set := ofRecords p.isPrimary inside
    let files := (inside.map fun r => r.path.components).dedup.length
    let published := p.publish records run
    let summary := published.2.2
    (p.visible records run = set ∧ published.1.published = set.paths ∧
      published.2.1 = (p.published.filter fun file => !set.contains file).map .erase ++
        set.toList.map fun e => .set e.1 e.2) ∧
    (summary.reported = records.length ∧ summary.published = inside.length ∧
      summary.published ≤ summary.reported ∧
      summary.reported - summary.published = outside.length ∧ summary.files = files) ∧
    summary.message =
      if records = [] then "Build succeeded with no errors"
      else "Build reported " ++ toString records.length ++ " error" ++
        (if records.length = 1 then "" else "s") ++ " in " ++ toString files ++ " file" ++
        (if files = 1 then "" else "s") ++
        if outside = [] then ""
        else " (" ++ toString outside.length ++ " outside the diagnostic scope)" := by
  intro accepts inside outside set files published summary
  have hset : p.visible records run = set :=
    retain_ofRecords Scope.accepts_congr p.isPrimary records
  have hreported : summary.reported = records.length := rfl
  have hpublished : summary.published = inside.length := by
    change (p.visible records run).count = _
    rw [hset, count_ofRecords]
  have hfiles : summary.files = files := by
    change (p.visible records run).size = _
    rw [hset, size_ofRecords]
  have hlength : inside.length + outside.length = records.length := by
    have hsplit := List.length_eq_length_filter_add (l := records) fun r => accepts r.path
    exact hsplit.symm
  have hhidden : records.length - summary.published = outside.length := by
    rw [hpublished]
    omega
  have hclean : summary.isClean = decide (records = []) := by
    rw [Summary.isClean, hreported]
    exact decide_eq_decide.mpr List.length_eq_zero_iff
  refine ⟨⟨hset, ?_, ?_⟩, ⟨hreported, hpublished, ?_, hhidden, hfiles⟩, ?_⟩
  · rw [← hset]
    rfl
  · rw [← hset]
    rfl
  · rw [hreported, hpublished]
    omega
  · have hnone : 0 < outside.length ↔ ¬outside = [] := by
      rw [List.length_pos_iff]
    simp only [Summary.message, hclean, hreported, hhidden, hfiles, Summary.pluralEnding,
      decide_eq_true_iff, hnone, ite_not]

end Publisher

end BuildWatch
