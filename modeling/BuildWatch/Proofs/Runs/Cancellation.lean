import BuildWatch.Proofs.Runs.Ownership
import BuildWatch.Proofs.Sample

namespace BuildWatch.Runs

open Execution

variable {s : Runs} {a : Action} {id : RunId} {r : Run}

theorem sound_act (hs : s.Sound) (a : Action) : (s.act a).Sound := by
  cases a with
  | start m tool argument =>
    have hc := sound_cancelCurrent hs
    cases h : m.start tool argument with
    | error e =>
      rw [act, start_of_error h]
      exact hc
    | ok b =>
      rw [act, start_of_ok h]
      exact sound_begun hc b
  | cancelRun id => exact sound_cancelRun hs id
  | cancel id => exact sound_cancel hs id
  | cancelCurrent => exact sound_cancelCurrent hs
  | forget id => exact sound_forget hs id
  | settle id => exact sound_settle hs id

theorem sound_acts (hs : s.Sound) (as : List Action) : (s.acts as).Sound := by
  induction as generalizing s with
  | nil => exact hs
  | cons a as ih => exact ih (sound_act hs a)

theorem run?_act (hs : s.Sound) (hr : s.run? id = some r) (a : Action) :
    (s.act a).run? id = some (a.change s r) := by
  have hid : ((fun r : Run => decide (r.id = id)) ∘ a.change s) =
      fun r : Run => decide (r.id = id) := by
    funext q
    simp [id_change]
  have hmap : (s.started.map (a.change s)).find? (fun r => r.id = id) = some (a.change s r) := by
    rw [List.find?_map, hid]
    exact congrArg (Option.map (a.change s)) hr
  rw [run?, started_act]
  cases hb : a.begins? s with
  | none => exact hmap
  | some q =>
    have hle := hs.numbered r (List.mem_of_find?_eq_some hr)
    have hrid : r.id = id := by simpa using List.find?_some hr
    have hne : q.id ≠ id := by
      rintro rfl
      rw [hrid, begins?_id hb] at hle
      exact absurd hle (Nat.not_succ_le_self _)
    simpa [hne] using hmap

theorem result?_change_of_cancelled (s : Runs) (a : Action) (hc : r.cancelled = true) :
    (a.change s r).result? =
      r.result?.or (if a.settles r.id then some (.error .cancelled) else none) := by
  unfold Action.change
  split
  · next h =>
    have hn : a.settles r.id = false := by
      cases a with
      | settle => cases h
      | start | cancelRun | cancel | cancelCurrent | forget => rfl
    simp only [hn, Bool.false_eq_true, if_false, Option.or_none]
    rfl
  · split
    · -- a task that is still on notices the cancellation before anything else
      obtain ⟨_, b, _, slot⟩ := r
      obtain rfl := hc
      cases slot with
      | waiting | closed => rfl
      | filled out => cases out <;> rfl
    · rw [Option.or_none]

/-- The holder of a run that was cancelled finds the result that its task had handed over by then,
and else that it was cancelled, as soon as the task has noticed. -/
theorem result?_acts_of_cancelled (hs : s.Sound) (hr : s.run? id = some r)
    (hc : r.cancelled = true) (as : List Action) :
    (s.acts as).isCancelled id = true ∧
      (s.acts as).result? id =
        r.result?.or (if as.any (Action.settles id) then some (.error .cancelled) else none) := by
  induction as generalizing s r with
  | nil =>
    have hi : s.isCancelled id = true := by rw [isCancelled, hr, Option.map_some, hc]; rfl
    refine ⟨hi, ?_⟩
    rw [acts, List.foldl_nil, result?, hr, Option.bind_some]
    exact (Option.or_none ..).symm
  | cons a as ih =>
    have hid : r.id = id := by simpa using List.find?_some hr
    obtain ⟨cancelled, slot, hch, hkeep⟩ := change_eq s a r
    have hc' : (a.change s r).cancelled = true := by rw [hch]; exact hkeep hc
    obtain ⟨hi, hres⟩ := ih (sound_act hs a) (run?_act hs hr a) hc'
    refine ⟨hi, hres.trans ?_⟩
    rw [result?_change_of_cancelled s a hc, hid, Option.or_assoc, List.any_cons]
    cases a.settles id <;> simp

/-- Whatever comes after the cancellation of a run, its holder never finds more than what the task
had handed over before. So all that is found is the cancellation just when nothing, or an earlier
cancellation, was there at that time. -/
theorem result?_after_cancel (limit : Option UInt64) (before : List Action) (a : Action)
    (id : RunId) (hid : (((new limit).acts before).run? id).isSome)
    (ha : a.cancels ((new limit).acts before) id) :
    let s := (new limit).acts before
    (∀ after, ((s.act a).acts after).isCancelled id = true ∧
      ((s.act a).acts after).result? id =
        (s.result? id).or
          (if after.any (Action.settles id) then some (.error .cancelled) else none)) ∧
      ((∀ after result, ((s.act a).acts after).result? id = some result →
          result = .error .cancelled) ↔
        s.result? id = none ∨ s.result? id = some (.error .cancelled)) := by
  intro s
  have hs : s.Sound := sound_acts (sound_new limit) before
  obtain ⟨r, hr⟩ := Option.isSome_iff_exists.mp hid
  obtain rfl : r.id = id := by simpa using List.find?_some hr
  have hch : a.change s r = { r with cancelled := true } := by rw [Action.change, if_pos ha]
  have hres : s.result? r.id = r.result? := by rw [result?, hr, Option.bind_some]
  have hafter : ∀ after, ((s.act a).acts after).isCancelled r.id = true ∧
      ((s.act a).acts after).result? r.id = (s.result? r.id).or
        (if after.any (Action.settles r.id) then some (.error .cancelled) else none) := by
    intro after
    have h := result?_acts_of_cancelled (sound_act hs a) (run?_act hs hr a)
      (by rw [hch]) after
    rw [hch] at h
    rw [hres]
    exact h
  refine ⟨hafter, fun h => ?_, fun h after result hresult => ?_⟩
  · cases hn : s.result? r.id with
    | none => exact .inl rfl
    | some result =>
      have hnow := (hafter []).2
      rw [hn, Option.some_or] at hnow
      rw [h [] result hnow]
      exact .inr rfl
  · rw [(hafter after).2] at hresult
    rcases h with h | h
    · rw [h, Option.none_or] at hresult
      split at hresult
      · exact (Option.some.inj hresult).symm
      · cases hresult
    · rw [h, Option.some_or] at hresult
      exact (Option.some.inj hresult).symm

theorem result?_after_cancel_waiting :
    let s := (new none).acts [.start (Sample.machine Sample.failing) "stack" ⟨"/w"⟩]
    (s.run? ⟨1⟩).isSome ∧ s.result? ⟨1⟩ = none ∧
      ((s.act (.cancelRun ⟨1⟩)).acts [.settle ⟨1⟩]).result? ⟨1⟩ = some (.error .cancelled) := by
  obtain ⟨h, -⟩ := result?_after_cancel none
    [.start (Sample.machine Sample.failing) "stack" ⟨"/w"⟩] (.cancelRun ⟨1⟩) ⟨1⟩ rfl rfl
  exact ⟨rfl, rfl, (h [.settle ⟨1⟩]).2⟩

/-- A run that is cancelled after its task has handed the records over still delivers them. -/
theorem delivers_after_cancel :
    ¬ ∀ (limit : Option UInt64) (before after : List Action) (a : Action) (id : RunId) result,
      (((new limit).acts before).run? id).isSome → a.cancels ((new limit).acts before) id →
        ((((new limit).acts before).act a).acts after).result? id = some result →
          result = .error .cancelled := by
  intro h
  have hr := h none [.start (Sample.machine Sample.failing) "stack" ⟨"/w"⟩, .settle ⟨1⟩] []
    (.cancelRun ⟨1⟩) ⟨1⟩ (.ok [⟨"A", 1, 0, "", []⟩]) rfl rfl rfl
  cases hr

end BuildWatch.Runs
