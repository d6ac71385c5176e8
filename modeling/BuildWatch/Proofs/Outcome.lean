import BuildWatch.Proofs.Driving
import BuildWatch.Proofs.Execution.Capture
import BuildWatch.Proofs.Service.Accounts

namespace BuildWatch

namespace Execution

def errorText (stderr : Bytes) : String := .ofList (Utf8.decodeLossy (stderr.take maxErrors))

theorem outputOf_eq (b : Behaviour) (status : Status) :
    outputOf b status =
      if maxOutput < b.stdout.length then .error (.tooLarge maxOutput)
      else if status.isSuccess then .ok b.stdout
      else .error (.exited status (errorText b.stderr)) := by
  rw [outputOf, captureStream_eq, captureStream_eq]
  by_cases h : maxOutput < b.stdout.length
  · simp [h]
  · simp [h, errorText, List.take_of_length_le (Nat.not_lt.mp h)]

namespace Behaviour

/-- All that is wrong with a run, in the order in which it counts. -/
def faults (limit : Option UInt64) (b : Behaviour) : List Failure :=
  (match b.ending, limit with
    | .runsOn, some ms => [.timedOut ms]
    | _, _ => []) ++
  (if maxOutput < b.stdout.length then [.tooLarge maxOutput] else []) ++
  (match b.ending with
    | .exits status =>
      if status.isSuccess then [] else [.exited status (errorText b.stderr)]
    | .runsOn => []) ++
  match Record.parseAll b.stdout with
    | .ok _ => []
    | .error e => [.payload e]

structure Succeeds (b : Behaviour) (records : List Record) : Prop where
  ends : ∃ status, b.ending = .exits status ∧ status.isSuccess = true
  size : b.stdout.length ≤ maxOutput
  payload : Record.parseAll b.stdout = .ok records

variable {limit : Option UInt64} {b : Behaviour}

/-- A process that ends comes to its records if nothing is wrong, else to the first fault. -/
theorem result?_cases (h : b.ending = .runsOn → limit ≠ none) :
    (∃ records, b.result? limit = some (.ok records) ∧ b.Succeeds records ∧ b.faults limit = []) ∨
      ∃ failure, b.result? limit = some (.error failure) ∧ (∀ records, ¬b.Succeeds records) ∧
        (b.faults limit).head? = some failure := by
  cases he : b.ending with
  | runsOn =>
    obtain ⟨ms, rfl⟩ := Option.ne_none_iff_exists'.mp (h he)
    refine .inr ⟨.timedOut ms, ?_, fun records hs => ?_, ?_⟩
    · simp [result?, outcome?, he, Except.bind]
    · obtain ⟨status, hstatus, -⟩ := hs.ends
      cases he.symm.trans hstatus
    · simp [faults, he]
  | exits status =>
    have hresult : b.result? limit = some ((outputOf b status).bind fun payload =>
        (Record.parseAll payload).mapError .payload) := by
      simp only [result?, outcome?, he, Option.map_some]
    rw [hresult, outputOf_eq]
    by_cases hsize : maxOutput < b.stdout.length
    · refine .inr ⟨.tooLarge maxOutput, ?_, fun records hs => absurd hs.size (by omega), ?_⟩
      · rw [if_pos hsize]
        rfl
      · simp [faults, he, hsize]
    · rw [if_neg hsize]
      cases hstatus : status.isSuccess with
      | false =>
        refine .inr ⟨.exited status (errorText b.stderr), rfl, fun records hs => ?_, ?_⟩
        · obtain ⟨status', hstatus', hs⟩ := hs.ends
          obtain rfl := Ending.exits.inj (he.symm.trans hstatus')
          rw [hstatus] at hs
          cases hs
        · simp [faults, he, hsize, hstatus]
      | true =>
        cases hp : Record.parseAll b.stdout with
        | ok records =>
          refine .inl ⟨records, ?_, ⟨⟨status, he, hstatus⟩, Nat.not_lt.mp hsize, hp⟩, ?_⟩
          · rw [if_pos rfl, Except.bind, hp]
            rfl
          · simp [faults, he, hsize, hstatus, hp]
        | error e =>
          refine .inr ⟨.payload e, ?_, fun records hs => ?_, ?_⟩
          · rw [if_pos rfl, Except.bind, hp]
            rfl
          · cases hp.symm.trans hs.payload
          · simp [faults, he, hsize, hstatus, hp]

end Behaviour

end Execution

def Failure.quoting (text : String) : Failure → Failure
  | .exited status _ => .exited status text
  | f => f

def Outcome.quoting (text : String) : Outcome → Outcome
  | .failed f => .failed (f.quoting text)
  | o => o

theorem Execution.Behaviour.result?_of_stderr (limit : Option UInt64) (b : Behaviour)
    (stderr : Bytes) :
    ({ b with stderr } : Behaviour).result? limit =
      (b.result? limit).map (Except.mapError (Failure.quoting (errorText stderr))) := by
  cases he : b.ending with
  | runsOn =>
    simp only [result?, outcome?, he]
    cases limit <;> rfl
  | exits status =>
    simp only [result?, outcome?, he, outputOf_eq, Option.map_some, Option.some.injEq]
    split
    · rfl
    · split
      · simp only [Except.bind]
        cases Record.parseAll b.stdout <;> rfl
      · rfl

theorem Outcome.ofResult_quoting (s : Settings) (isPrimary : SourceTest) (run : AwaitedRun)
    (text : String) (result : Except Failure (List Record)) :
    ofResult s isPrimary run (result.mapError (Failure.quoting text)) =
      (ofResult s isPrimary run result).quoting text := by
  cases result <;> rfl

namespace Publisher

variable {s : Settings} {isPrimary : SourceTest} {p : Publisher} {h : History}

theorem reports_of_run (hp : p.Follows s isPrimary h) {m : Execution.Machine} {t : Trigger}
    {b : Execution.Behaviour} (ha : s.attempt m t = .ok b)
    {result : Except Failure (List Record)} (hb : b.result? s.limit = some result) :
    (p.run m t).2.reports =
      [⟨some ⟨h.issued s + 1⟩, .ofResult s isPrimary
        ⟨⟨h.issued s + 1⟩, t.root, History.document (.took m t :: h)⟩ result⟩] := by
  have hq := follows_settle (follows_took hp m t) ⟨h.issued s + 1⟩
  let f : Flight := ⟨⟨⟨h.issued s + 1⟩, t.root, History.document (.took m t :: h)⟩, b⟩
  have hw : ((p.turn (.took m t)).1.settle f.run.id).Awaits f.run f.behaviour :=
    awaits_settle (awaits_started hp ha) _
  rw [run_of_ok hp ha, collect, result?_started hp ha, hb]
  exact reports_conclude hq hw result

theorem reports_of_stderr (hp : p.Follows s isPrimary h) {m : Execution.Machine} {t : Trigger}
    {b : Execution.Behaviour} {stderr : Bytes} (ha : s.attempt m t = .ok { b with stderr })
    {result : Except Failure (List Record)} (hb : b.result? s.limit = some result) :
    (p.run m t).2.reports =
      [⟨some ⟨h.issued s + 1⟩, (Outcome.ofResult s isPrimary
        ⟨⟨h.issued s + 1⟩, t.root, History.document (.took m t :: h)⟩ result).quoting
          (Execution.errorText stderr)⟩] := by
  have hb' : ({ b with stderr } : Execution.Behaviour).result? s.limit =
      some (result.mapError (Failure.quoting (Execution.errorText stderr))) := by
    rw [Execution.Behaviour.result?_of_stderr, hb, Option.map_some]
  rw [reports_of_run hp ha hb', Outcome.ofResult_quoting]

/-- A run that ends is reported once. It succeeds exactly if its process ends within the limit and
with status zero and writes a list of records and not too much, and else it fails of the first of
its faults. What the process writes to its standard error does not matter for which. -/
theorem outcome_of_run (s : Settings) (isPrimary : SourceTest) (ops : List Operation)
    {m : Execution.Machine} {t : Trigger} {b : Execution.Behaviour} (ha : s.attempt m t = .ok b)
    (hends : b.ending = .runsOn → s.limit ≠ none) :
    let p := (((new s).withSourceTest isPrimary).drive ops).1
    ∃ id outcome, (p.run m t).2.reports = [⟨some id, outcome⟩] ∧
      ((∃ summary, outcome = .succeeded summary) ↔ ∃ records, b.Succeeds records) ∧
      (∀ summary records, outcome = .succeeded summary → b.Succeeds records →
        summary.reported = records.length) ∧
      (∀ failure, outcome = .failed failure ↔ (b.faults s.limit).head? = some failure) ∧
      ∀ m' stderr, s.attempt m' t = .ok { b with stderr } →
        (p.run m' t).2.reports =
          [⟨some id, outcome.quoting (Execution.errorText stderr)⟩] := by
  intro p
  have hp := (tracks_drive ⟨follows_new s isPrimary, displays_new s isPrimary⟩ ops).follows
  rcases b.result?_cases hends with ⟨records, hb, hs, hnone⟩ | ⟨failure, hb, hno, hfirst⟩
  · refine ⟨_, _, reports_of_run hp ha hb, ⟨fun _ => ⟨records, hs⟩, fun _ => ⟨_, rfl⟩⟩, ?_, ?_,
      fun m' stderr ha' => reports_of_stderr hp ha' hb⟩
    · rintro summary records' h hs'
      obtain rfl := Except.ok.inj (hs.payload.symm.trans hs'.payload)
      rw [← Outcome.succeeded.inj h]
      rfl
    · rw [hnone]
      exact fun failure => ⟨nofun, nofun⟩
  · refine ⟨_, _, reports_of_run hp ha hb, ⟨nofun, fun ⟨records, h⟩ => absurd h (hno records)⟩,
      nofun, fun failure' => ?_, fun m' stderr ha' => reports_of_stderr hp ha' hb⟩
    rw [hfirst]
    exact ⟨fun h => congrArg some (Outcome.failed.inj h),
      fun h => congrArg Outcome.failed (Option.some.inj h)⟩

theorem outcome_of_run_failing :
    let p := (((new Sample.settings).withSourceTest fun _ => true).drive []).1
    Sample.settings.attempt (Sample.machine Sample.failing) Sample.trigger = .ok Sample.failing ∧
      ∃ id outcome summary, outcome = .succeeded summary ∧ summary.reported = 1 ∧
        (p.run (Sample.machine Sample.failing) Sample.trigger).2.reports = [⟨some id, outcome⟩] := by
  intro p
  have ha : Sample.settings.attempt (Sample.machine Sample.failing) Sample.trigger =
      .ok Sample.failing := rfl
  have hs : Sample.failing.Succeeds [⟨"A", 1, 0, "", []⟩] :=
    ⟨⟨.exited 0, rfl, rfl⟩, by decide, rfl⟩
  obtain ⟨id, outcome, hr, hsucceeds, hcount, -, -⟩ :=
    outcome_of_run Sample.settings (fun _ => true) [] ha nofun
  obtain ⟨summary, h⟩ := hsucceeds.mpr ⟨_, hs⟩
  exact ⟨ha, id, outcome, summary, h, hcount summary _ h hs, hr⟩

end Publisher

end BuildWatch
