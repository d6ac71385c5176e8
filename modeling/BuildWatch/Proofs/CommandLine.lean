import BuildWatch.CommandLine
import BuildWatch.Proofs.Aggregation
import BuildWatch.Proofs.Outcome
import BuildWatch.Proofs.Rested

namespace BuildWatch

namespace CommandLine

open Publisher Record

/-- The text of a record. Its file is written as it was spelled first. -/
def line (isPrimary : SourceTest) (records : List Record) (r : Record) : String :=
  (r.diagnostic isPrimary).render (spelling records r.path) ++ "\n"

section Listing

variable {isPrimary : SourceTest} {records : List Record}

theorem lines_of_entry {e : Path × List Diagnostic}
    (h : e ∈ (DiagnosticMap.ofRecords isPrimary records).files.entries) :
    (e.2.map fun d => d.render e.1 ++ "\n") =
      (ofFile records e.1).map (line isPrimary records) := by
  rw [DiagnosticMap.value_ofRecords h, List.map_map]
  refine List.map_congr_left fun r hr => ?_
  rw [line, DiagnosticMap.spelling_of_same h (mem_ofFile.mp hr).2]
  rfl

theorem listing_set (keep : Path → Bool) :
    let es := ((DiagnosticMap.ofRecords isPrimary records).retain keep).toList
    listing (Store.empty.applyAll (es.map fun e => .set e.1 e.2)) =
      .join ((gathered records es).map (line isPrimary records)) := by
  intro es
  have hsound := DiagnosticMap.sound_retain (DiagnosticMap.sound_ofRecords isPrimary records) keep
  have hstore : (Store.empty.applyAll (es.map fun e => .set e.1 e.2)).toList = [] ++ es :=
    Store.toList_applyAll_set hsound.sorted hsound.full
  have hlines : ∀ e ∈ es, (e.2.map fun d => d.render e.1 ++ "\n") =
      (ofFile records e.1).map (line isPrimary records) :=
    fun e he => lines_of_entry (List.mem_filter.mp he).1
  rw [listing, hstore, gathered, List.map_flatMap]
  exact congrArg (fun ls => String.join (List.flatten ls)) (List.map_congr_left hlines)

end Listing

section OneShot

variable {s : Settings} {m : Execution.Machine} {root : Path}

theorem oneShot_of_report {out : Output} {report : Report}
    (hout : ((new s).run m ⟨.command, root, none⟩).2 = out) (hr : out.reports = [report]) :
    ∃ notice, oneShot s m root =
      some ⟨⟨listing (Store.empty.applyAll out.edits), notice⟩, exitCode report.outcome⟩ := by
  subst hout
  simp only [oneShot, hr, List.head?_cons, Option.map_some]
  exact ⟨_, rfl⟩

theorem oneShot_of_start_error {e : StartError}
    (ha : s.attempt m ⟨.command, root, none⟩ = .error e) :
    ∃ notice, oneShot s m root = some ⟨⟨"", notice⟩, 2⟩ :=
  oneShot_of_report (congrArg Prod.snd (run_of_rested_of_error (rested_new s _) ha)) rfl

variable {b : Execution.Behaviour}

theorem oneShot_of_failure {failure : Failure}
    (ha : s.attempt m ⟨.command, root, none⟩ = .ok b)
    (hb : b.result? s.limit = some (.error failure)) :
    ∃ notice, oneShot s m root = some ⟨⟨"", notice⟩, 2⟩ := by
  have hrun := run_of_rested_of_ok (rested_new s (.ofExtensions s.primaryExtensions)) ha hb
  rw [conclude_of_error (awaits_settle (awaits_begun _ _ b) _)] at hrun
  exact oneShot_of_report (congrArg Prod.snd hrun) rfl

theorem oneShot_of_success {records : List Record}
    (ha : s.attempt m ⟨.command, root, none⟩ = .ok b)
    (hb : b.result? s.limit = some (.ok records)) :
    let isPrimary := SourceTest.ofExtensions s.primaryExtensions
    let es := ((DiagnosticMap.ofRecords isPrimary records).retain (s.scope.accepts root none)).toList
    ∃ notice, oneShot s m root =
      some ⟨⟨.join ((gathered records es).map (line isPrimary records)), notice⟩,
        if records = [] then 0 else 1⟩ := by
  intro isPrimary es
  let set := (DiagnosticMap.ofRecords isPrimary records).retain (s.scope.accepts root none)
  have hrun := run_of_rested_of_ok (rested_new s isPrimary) ha hb
  rw [conclude_of_ok (awaits_settle (awaits_begun _ _ b) _)] at hrun
  have hout : ((new s).run m ⟨.command, root, none⟩).2 =
      ⟨es.map fun e => .set e.1 e.2,
        [⟨some ⟨1⟩, .succeeded ⟨records.length, set.count, set.size⟩⟩]⟩ :=
    congrArg Prod.snd hrun
  have hcode : exitCode (.succeeded ⟨records.length, set.count, set.size⟩) =
      if records = [] then 0 else 1 := by
    cases records <;> rfl
  obtain ⟨notice, h⟩ := oneShot_of_report hout rfl
  exact ⟨notice, by rw [h, hcode, listing_set]⟩

end OneShot

/-- That the build tool is started on a workspace and comes to some records. -/
def Succeeds (s : Settings) (m : Execution.Machine) (root : Path) (records : List Record) : Prop :=
  ∃ b, s.attempt m ⟨.command, root, none⟩ = .ok b ∧ b.Succeeds records

section Cases

variable {s : Settings} {m : Execution.Machine} {root : Path}

theorem Succeeds.unique {records records' : List Record} (h : Succeeds s m root records)
    (h' : Succeeds s m root records') : records = records' := by
  obtain ⟨b, ha, hs⟩ := h
  obtain ⟨b', ha', hs'⟩ := h'
  obtain rfl := Except.ok.inj (ha.symm.trans ha')
  exact Except.ok.inj (hs.payload.symm.trans hs'.payload)

/-- What a single run tells. The texts it lists are those of records in scope. -/
inductive Told (s : Settings) (m : Execution.Machine) (root : Path) : Transcript → Prop
  | failed (notice : String) (h : ∀ records, ¬Succeeds s m root records) :
      Told s m root ⟨⟨"", notice⟩, 2⟩
  | listed {records shown : List Record} (notice : String) (h : Succeeds s m root records)
      (hlisted : Listed (records.filter fun r => s.scope.accepts root none r.path) shown) :
      Told s m root
        ⟨⟨.join (shown.map (line (.ofExtensions s.primaryExtensions) records)), notice⟩,
          if records = [] then 0 else 1⟩

theorem told_oneShot (hends : ∀ b, s.attempt m ⟨.command, root, none⟩ = .ok b →
      b.ending = .runsOn → s.limit ≠ none) :
    ∃ t, oneShot s m root = some t ∧ Told s m root t := by
  cases ha : s.attempt m ⟨.command, root, none⟩ with
  | error e =>
    obtain ⟨notice, h⟩ := oneShot_of_start_error ha
    refine ⟨_, h, .failed notice fun records ⟨b, hb, _⟩ => ?_⟩
    cases ha.symm.trans hb
  | ok b =>
    rcases b.result?_cases (hends b ha) with ⟨records, hb, hs, -⟩ | ⟨failure, hb, hno, -⟩
    · obtain ⟨notice, h⟩ := oneShot_of_success ha hb
      have hsound := DiagnosticMap.sound_ofRecords (.ofExtensions s.primaryExtensions) records
      have hlisted := listed_gathered hsound.sorted fun r hr => DiagnosticMap.mem_keys_ofRecords hr
      have hfilter := hlisted.filter fun r => s.scope.accepts root none r.path
      rw [← gathered_filter fun h => Scope.accepts_congr h] at hfilter
      exact ⟨_, h, .listed notice ⟨b, ha, hs⟩ hfilter⟩
    · obtain ⟨notice, h⟩ := oneShot_of_failure ha hb
      refine ⟨_, h, .failed notice fun records ⟨b', hb', hs⟩ => ?_⟩
      obtain rfl := Except.ok.inj (ha.symm.trans hb')
      exact hno records hs

variable {t : Transcript}

theorem Told.exitCode_eq_two_iff (h : Told s m root t) :
    t.exitCode = 2 ↔ ∀ records, ¬Succeeds s m root records := by
  cases h with
  | failed notice hno => exact iff_of_true rfl hno
  | @listed records _ _ hs _ =>
    refine iff_of_false ?_ fun hno => hno records hs
    cases records <;> nofun

theorem Told.exitCode_eq_zero_iff (h : Told s m root t) :
    t.exitCode = 0 ↔ Succeeds s m root [] := by
  cases h with
  | failed notice hno => exact iff_of_false nofun (hno [])
  | @listed records _ _ hs _ =>
    cases records with
    | nil => exact iff_of_true rfl hs
    | cons r rs => exact iff_of_false nofun fun hnil => nomatch hs.unique hnil

theorem Told.exitCode_eq_one_iff (h : Told s m root t) :
    t.exitCode = 1 ↔ ∃ r rs, Succeeds s m root (r :: rs) := by
  cases h with
  | failed notice hno => exact iff_of_false nofun fun ⟨r, rs, hs⟩ => hno (r :: rs) hs
  | @listed records _ _ hs _ =>
    cases records with
    | nil => exact iff_of_false nofun fun ⟨r, rs, hcons⟩ => nomatch hs.unique hcons
    | cons r rs => exact iff_of_true rfl ⟨r, rs, hs⟩

theorem Told.stdout_eq (h : Told s m root t) {records : List Record}
    (hs : Succeeds s m root records) :
    ∃ shown, Listed (records.filter fun r => s.scope.accepts root none r.path) shown ∧
      t.console.stdout =
        .join (shown.map (line (.ofExtensions s.primaryExtensions) records)) := by
  cases h with
  | failed notice hno => exact absurd hs (hno records)
  | listed notice hs' hlisted =>
    obtain rfl := hs'.unique hs
    exact ⟨_, hlisted, rfl⟩

theorem Told.stdout_eq_empty (h : Told s m root t) (hcode : t.exitCode = 0 ∨ t.exitCode = 2) :
    t.console.stdout = "" := by
  rcases hcode with hzero | htwo
  · obtain ⟨shown, hlisted, hstdout⟩ := h.stdout_eq (h.exitCode_eq_zero_iff.mp hzero)
    obtain rfl : shown = [] := List.perm_nil.mp hlisted.perm
    exact hstdout
  · cases h with
    | failed notice hno => rfl
    | @listed records _ _ hs _ => cases records <;> cases htwo

end Cases

/-- A single run on a workspace that is there ends if the build tool does. It prints the records that
are in scope, file by file in path order, and the exit code tells of all that were reported. -/
theorem transcript_of_start {x : Surroundings} {arguments : List String} {given : Option Path}
    {root : Path} (hparse : parse arguments = .ok (.run false given))
    (hroot : x.workspace given = .ok root)
    (hends : ∀ b, x.settings.attempt x.machine ⟨.command, root, none⟩ = .ok b →
      b.ending = .runsOn → x.settings.limit ≠ none) :
    let s := x.settings
    let succeeds := Succeeds s x.machine root
    ∃ t, start x arguments = .ended t ∧
      (t.exitCode = 0 ↔ succeeds []) ∧
      (t.exitCode = 1 ↔ ∃ r rs, succeeds (r :: rs)) ∧
      (t.exitCode = 2 ↔ ∀ records, ¬succeeds records) ∧
      (∀ records, succeeds records → ∃ shown,
        Listed (records.filter fun r => s.scope.accepts root none r.path) shown ∧
        t.console.stdout =
          .join (shown.map (line (.ofExtensions s.primaryExtensions) records))) ∧
      (t.exitCode = 0 ∨ t.exitCode = 2 → t.console.stdout = "") := by
  intro s succeeds
  obtain ⟨t, hone, htold⟩ := told_oneShot hends
  have hstart : start x arguments = .ended t := by
    simp only [start, hparse, hroot, Bool.false_eq_true, if_false]
    rw [hone]
  exact ⟨t, hstart, htold.exitCode_eq_zero_iff, htold.exitCode_eq_one_iff,
    htold.exitCode_eq_two_iff, fun records hs => htold.stdout_eq hs, htold.stdout_eq_empty⟩

def surroundings (b : Execution.Behaviour) : Surroundings :=
  ⟨Sample.machine b, ⟨[("STACKRUNNER_SERVER_BINARY", "stack")]⟩, .absent⟩

theorem transcript_of_start_failing :
    ∃ t, start (surroundings Sample.failing) [] = .ended t ∧ t.exitCode = 1 ∧
      t.console.stdout = "A:1:1: error: [stackrunner] build error\n" := by
  have hparse : parse [] = .ok (.run false none) := rfl
  have hroot : (surroundings Sample.failing).workspace none = .ok ⟨"/bin"⟩ := rfl
  have ha : (surroundings Sample.failing).settings.attempt (surroundings Sample.failing).machine
      ⟨.command, ⟨"/bin"⟩, none⟩ = .ok Sample.failing := rfl
  have hs : Succeeds (surroundings Sample.failing).settings (surroundings Sample.failing).machine
      ⟨"/bin"⟩ [⟨"A", 1, 0, "", []⟩] :=
    ⟨Sample.failing, ha, ⟨.exited 0, rfl, rfl⟩, by decide, rfl⟩
  obtain ⟨t, ht, -, hone, -, hprint, -⟩ := transcript_of_start hparse hroot fun b hb hrunsOn => by
    obtain rfl := Except.ok.inj (ha.symm.trans hb)
    cases hrunsOn
  obtain ⟨shown, hlisted, hstdout⟩ := hprint _ hs
  obtain rfl : shown = [⟨"A", 1, 0, "", []⟩] := List.perm_singleton.mp hlisted.perm
  exact ⟨t, ht, hone.mpr ⟨_, _, hs⟩, hstdout.trans rfl⟩

end CommandLine

end BuildWatch
