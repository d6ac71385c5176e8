import BuildWatch.Proofs.Runs
import Mathlib.Data.List.Induction
import Mathlib.Data.List.Nodup

namespace BuildWatch.Runs

open Execution

/-- What can happen to the runs of a tool. Their owner starts, cancels and forgets them, whoever
holds one can cancel it, and the task of a run goes on by itself. -/
inductive Action where
  | start (m : Machine) (tool : String) (argument : Path)
  | cancelRun (id : RunId)
  | cancel (id : RunId)
  | cancelCurrent
  | forget (id : RunId)
  | settle (id : RunId)

def act (s : Runs) : Action → Runs
  | .start m tool argument => (s.start m tool argument).1
  | .cancelRun id => s.cancelRun id
  | .cancel id => s.cancel id
  | .cancelCurrent => s.cancelCurrent
  | .forget id => s.forget id
  | .settle id => s.settle id

def acts (s : Runs) (as : List Action) : Runs := as.foldl act s

theorem acts_concat (s : Runs) (as : List Action) (a : Action) :
    s.acts (as ++ [a]) = (s.acts as).act a := List.foldl_concat act s a as

namespace Action

def cancels (s : Runs) (id : RunId) : Action → Bool
  | .start _ _ _ | .cancelCurrent => s.current = some id
  | .cancelRun i | .cancel i => i = id
  | .forget _ | .settle _ => false

def settles (id : RunId) : Action → Bool
  | .settle i => i = id
  | _ => false

def begins? (s : Runs) : Action → Option Run
  | .start m tool argument =>
    match m.start tool argument with
    | .ok b => some ⟨⟨s.issued + 1⟩, b, false, .waiting⟩
    | .error _ => none
  | _ => none

def change (s : Runs) (a : Action) (r : Run) : Run :=
  if a.cancels s r.id then { r with cancelled := true }
  else if a.settles r.id then r.settle s.limit
  else r

def answer? (s : Runs) : Action → Option (Except StartError RunId)
  | .start m tool argument => some (s.start m tool argument).2
  | _ => none

/-- Whether an action leaves the current run alone: nothing is started, and neither is all that is
current cancelled nor this run cancelled or forgotten by the owner. -/
def spares (current : Option RunId) : Action → Bool
  | .start _ _ _ | .cancelCurrent => false
  | .cancel id | .forget id => current ≠ some id
  | .cancelRun _ | .settle _ => true

end Action

def answers (s : Runs) : List Action → List (Except StartError RunId)
  | [] => []
  | a :: as => (a.answer? s).toList ++ (s.act a).answers as

def numbers (s : Runs) (as : List Action) : List RunId :=
  (s.answers as).filterMap Except.toOption

def Released (s : Runs) (as : List Action) (id : RunId) : Prop :=
  ∃ before after, as = before ++ .forget id :: after ∧ (s.acts before).current = some id

def Kept (s : Runs) (as : List Action) (r : Run) : Prop :=
  r.cancelled = false ∧ ¬ s.Released as r.id

variable {s : Runs} {a : Action} {id : RunId}

/-- An action never takes a cancellation back, and a run stays what it was started as. -/
theorem change_eq (s : Runs) (a : Action) (r : Run) :
    ∃ cancelled slot, a.change s r = { r with cancelled, slot } ∧
      (r.cancelled = true → cancelled = true) := by
  unfold Action.change
  split
  · exact ⟨true, r.slot, rfl, fun _ => rfl⟩
  · split
    · obtain ⟨slot, hs⟩ := r.settle_eq s.limit
      exact ⟨r.cancelled, slot, hs, id⟩
    · exact ⟨r.cancelled, r.slot, rfl, id⟩

theorem id_change (s : Runs) (a : Action) (r : Run) : (a.change s r).id = r.id := by
  obtain ⟨_, _, h, -⟩ := change_eq s a r
  rw [h]

theorem started_cancel (s : Runs) (id : RunId) :
    (s.cancel id).started =
      s.started.map fun r => if r.id = id then { r with cancelled := true } else r := by
  unfold cancel forget
  split <;> rfl

theorem started_cancelCurrent (s : Runs) :
    s.cancelCurrent.started =
      s.started.map fun r => if s.current = some r.id then { r with cancelled := true } else r := by
  cases hc : s.current with
  | none => simp [cancelCurrent_of_none hc]
  | some id => simp [cancelCurrent, hc, started_cancel, eq_comm]

theorem start_of_error {m : Machine} {tool : String} {argument : Path} {e : StartError}
    (h : m.start tool argument = .error e) :
    s.start m tool argument = (s.cancelCurrent, .error e) := by
  simp only [start, h]

theorem start_of_ok {m : Machine} {tool : String} {argument : Path} {b : Behaviour}
    (h : m.start tool argument = .ok b) :
    s.start m tool argument = (s.cancelCurrent.begun b, .ok ⟨s.issued + 1⟩) := by
  simp only [start, h, begun, cancelCurrent_issued]

theorem started_act (s : Runs) (a : Action) :
    (s.act a).started = (a.begins? s).toList ++ s.started.map (a.change s) := by
  cases a with
  | start m tool argument =>
    cases h : m.start tool argument with
    | error e =>
      simp [act, start_of_error h, started_cancelCurrent, Action.begins?, h, Action.change,
        Action.cancels, Action.settles]
    | ok b =>
      simp [act, start_of_ok h, begun, started_cancelCurrent, cancelCurrent_issued,
        Action.begins?, h, Action.change, Action.cancels, Action.settles]
  | cancelRun id =>
    simp [act, cancelRun, updateRun, Action.begins?, Action.change, Action.cancels,
      Action.settles, eq_comm]
  | cancel id =>
    simp [act, started_cancel, Action.begins?, Action.change, Action.cancels, Action.settles,
      eq_comm]
  | cancelCurrent =>
    simp [act, started_cancelCurrent, Action.begins?, Action.change, Action.cancels,
      Action.settles]
  | forget i =>
    have hf : (s.forget i).started = s.started := by
      unfold forget
      split <;> rfl
    have hc : Action.change s (.forget i) = id := by
      funext r
      simp [Action.change, Action.cancels, Action.settles]
    simp [act, hf, hc, Action.begins?]
  | settle id =>
    simp [act, settle, updateRun, Action.begins?, Action.change, Action.cancels,
      Action.settles, eq_comm]

theorem issued_act (s : Runs) (a : Action) :
    (s.act a).issued = s.issued + (a.begins? s).toList.length := by
  cases a with
  | start m tool argument =>
    cases h : m.start tool argument with
    | error e => simp [act, start_of_error h, cancelCurrent_issued, Action.begins?, h]
    | ok b => simp [act, start_of_ok h, begun, cancelCurrent_issued, Action.begins?, h]
  | cancelRun | settle => rfl
  | cancelCurrent => exact s.cancelCurrent_issued
  | cancel | forget =>
    simp only [act, cancel, forget]
    split <;> rfl

theorem current_act (s : Runs) (a : Action) :
    (s.act a).current =
      match a with
      | .start _ _ _ => (a.begins? s).map Run.id
      | .cancelCurrent => none
      | .cancel id | .forget id => if s.current = some id then none else s.current
      | .cancelRun _ | .settle _ => s.current := by
  cases a with
  | start m tool argument =>
    cases h : m.start tool argument with
    | error e => simp [act, start_of_error h, cancelCurrent_current, Action.begins?, h]
    | ok b => simp [act, start_of_ok h, begun, cancelCurrent_issued, Action.begins?, h]
  | cancelRun | settle => rfl
  | cancelCurrent => exact s.cancelCurrent_current
  | cancel | forget =>
    simp only [act, cancel, forget, cancelRun, updateRun]
    split <;> rfl

theorem current_act_of_begins {r : Run} (hr : a.begins? s = some r) :
    (s.act a).current = some r.id := by
  cases a with
  | start => rw [current_act, hr, Option.map_some]
  | cancelRun | cancel | cancelCurrent | forget | settle => cases hr

theorem current_act_of_not_cancels (hc : a.cancels s id = false) (hf : a ≠ .forget id)
    (h : s.current = some id) : (s.act a).current = some id := by
  rw [current_act]
  cases a with
  | start | cancelCurrent => simp [Action.cancels, h] at hc
  | cancelRun i | settle i => exact h
  | cancel i =>
    have hi : i ≠ id := by simpa [Action.cancels] using hc
    simp [h, Ne.symm hi]
  | forget i =>
    have hi : id ≠ i := fun hi => hf (by rw [hi])
    simp [h, hi]

theorem current_act_cases (s : Runs) (a : Action) :
    (∃ r, a.begins? s = some r) ∨ (s.act a).current = none ∨
      a.begins? s = none ∧ (s.act a).current = s.current := by
  cases hb : a.begins? s with
  | some r => exact .inl ⟨r, rfl⟩
  | none =>
    rw [current_act]
    cases a with
    | start => simp [hb]
    | cancelRun | cancelCurrent | settle => simp
    | cancel i | forget i => by_cases h : s.current = some i <;> simp [h]

theorem current_act_of_spares (h : a.spares s.current) : (s.act a).current = s.current := by
  rw [current_act]
  cases a with
  | start | cancelCurrent => cases h
  | cancelRun | settle => rfl
  | cancel i | forget i => simp_all [Action.spares]

theorem current_acts_of_spares {as : List Action} (h : ∀ a ∈ as, a.spares s.current) :
    (s.acts as).current = s.current := by
  induction as generalizing s with
  | nil => rfl
  | cons a as ih =>
    have ha := current_act_of_spares (h a List.mem_cons_self)
    exact (ih fun b hb => ha ▸ h b (List.mem_cons_of_mem a hb)).trans ha

theorem begins?_id {r : Run} (hr : a.begins? s = some r) : r.id = ⟨s.issued + 1⟩ := by
  cases a with
  | start m tool argument =>
    cases h : m.start tool argument <;> simp [Action.begins?, h] at hr
    rw [← hr]
  | cancelRun | cancel | cancelCurrent | forget | settle => cases hr

theorem numbers_cons (s : Runs) (a : Action) (as : List Action) :
    s.numbers (a :: as) = (a.begins? s).toList.map Run.id ++ (s.act a).numbers as := by
  have ha : (a.answer? s).toList.filterMap Except.toOption =
      (a.begins? s).toList.map Run.id := by
    cases a with
    | start m tool argument =>
      cases h : m.start tool argument with
      | error e => simp [Action.answer?, start_of_error h, Action.begins?, h, Except.toOption]
      | ok b => simp [Action.answer?, start_of_ok h, Action.begins?, h, Except.toOption]
    | cancelRun | cancel | cancelCurrent | forget | settle => rfl
  rw [numbers, answers, List.filterMap_append, ha]
  rfl

theorem numbers_eq (s : Runs) (as : List Action) :
    s.numbers as =
      (List.range' (s.issued + 1) (s.numbers as).length).map RunId.mk := by
  induction as generalizing s with
  | nil => rfl
  | cons a as ih =>
    have hi := ih (s.act a)
    rw [issued_act] at hi
    rw [numbers_cons]
    cases hb : a.begins? s with
    | none => simpa [hb] using hi
    | some r =>
      rw [hb] at hi
      simpa [List.range'_succ, begins?_id hb] using hi

theorem ids_act (s : Runs) (a : Action) :
    (s.act a).started.map Run.id =
      (a.begins? s).toList.map Run.id ++ s.started.map Run.id := by
  rw [started_act, List.map_append, List.map_map]
  exact congrArg _ (List.map_congr_left fun r _ => id_change s a r)

theorem ids_acts (s : Runs) (as : List Action) :
    (s.acts as).started.map Run.id = (s.numbers as).reverse ++ s.started.map Run.id := by
  induction as generalizing s with
  | nil => rfl
  | cons a as ih =>
    refine (ih (s.act a)).trans ?_
    rw [ids_act, numbers_cons, List.reverse_append, List.append_assoc]
    cases a.begins? s <;> rfl

theorem ids_new (limit : Option UInt64) (as : List Action) :
    ((new limit).acts as).started.map Run.id = ((new limit).numbers as).reverse :=
  (ids_acts (new limit) as).trans (List.append_nil _)

theorem nodup_ids (limit : Option UInt64) (as : List Action) :
    (((new limit).acts as).started.map Run.id).Nodup := by
  rw [ids_new, List.nodup_reverse, numbers_eq]
  exact List.Nodup.map (fun _ _ h => RunId.mk.inj h) List.nodup_range'

theorem head?_of_current (limit : Option UInt64) (as : List Action)
    (h : ((new limit).acts as).current = some id) :
    (((new limit).acts as).started.map Run.id).head? = some id := by
  -- the newest action comes last, so the induction is on the end of the list
  induction as using List.reverseRecOn generalizing id with
  | nil => cases h
  | append_singleton as a ih =>
    rw [acts_concat] at h ⊢
    rw [ids_act]
    rcases current_act_cases ((new limit).acts as) a with ⟨r, hr⟩ | hn | ⟨hr, hc⟩
    · rw [current_act_of_begins hr] at h
      simpa [hr] using h
    · cases hn.symm.trans h
    · simpa [hr] using ih (hc.symm.trans h)

theorem released_append {as : List Action} (h : s.Released as id) (bs : List Action) :
    s.Released (as ++ bs) id := by
  obtain ⟨before, after, rfl, hc⟩ := h
  exact ⟨before, after ++ bs, by simp, hc⟩

theorem current_or_cancelled_or_released (limit : Option UInt64) (as : List Action) :
    ∀ r ∈ ((new limit).acts as).started, ((new limit).acts as).current = some r.id ∨
      r.cancelled = true ∨ (new limit).Released as r.id := by
  induction as using List.reverseRecOn with
  | nil => exact nofun
  | append_singleton as a ih =>
    intro r hr
    rw [acts_concat] at hr ⊢
    generalize hs : (new limit).acts as = s at hr ih ⊢
    rw [started_act] at hr
    -- a run that was just added is the current one; any other had a reason before the action
    rcases List.mem_append.mp hr with hr | hr
    · exact .inl (current_act_of_begins (Option.mem_toList.mp hr))
    · obtain ⟨q, hq, rfl⟩ := List.mem_map.mp hr
      rw [id_change]
      rcases ih q hq with hc | hc | hc
      · by_cases ha : a.cancels s q.id
        · exact .inr (.inl (by rw [Action.change, if_pos ha]))
        by_cases hf : a = .forget q.id
        · exact .inr (.inr ⟨as, [], by rw [hf], hs ▸ hc⟩)
        · exact .inl (current_act_of_not_cancels (by simpa using ha) hf hc)
      · obtain ⟨_, _, h, hkeep⟩ := change_eq s a q
        exact .inr (.inl (by rw [h]; exact hkeep hc))
      · exact .inr (.inr (released_append hc [a]))

theorem run?_of_current (limit : Option UInt64) (as : List Action)
    (h : ((new limit).acts as).current = some id) :
    ∃ r, ((new limit).acts as).run? id = some r := by
  have hh := head?_of_current limit as h
  rw [List.head?_map] at hh
  obtain ⟨r, hr, rfl⟩ := Option.map_eq_some_iff.mp hh
  obtain ⟨rest, hl⟩ := List.head?_eq_some_iff.mp hr
  exact ⟨r, by simp [run?, hl]⟩

/-- The owner of the runs of a tool has at most one of them, the newest. Every other one was
cancelled or let go. Runs are numbered as they start, and a start that fails still takes the run
before it away. -/
theorem ownership (limit : Option UInt64) (as : List Action) :
    let s := (new limit).acts as
    let numbers := (new limit).numbers as
    (s.current = none ∨ s.current = numbers.getLast?) ∧
      s.started.map Run.id = numbers.reverse ∧
      (∀ r ∈ s.started, s.current = some r.id ∨ r.cancelled = true ∨
        (new limit).Released as r.id) ∧
      (∀ q ∈ s.started, ∀ r ∈ s.started,
        (new limit).Kept as q → (new limit).Kept as r → q = r) ∧
      numbers = (List.range' 1 numbers.length).map RunId.mk ∧
      (∀ m tool argument e, (s.start m tool argument).2 = .error e →
        (s.start m tool argument).1.current = none ∧
          ∀ id, s.current = some id → (s.start m tool argument).1.isCancelled id = true) ∧
      ∀ more : List Action, (∀ a ∈ more, a.spares s.current) →
        (s.acts more).current = s.current := by
  intro s numbers
  have hids : s.started.map Run.id = numbers.reverse := ids_new limit as
  have howned := current_or_cancelled_or_released limit as
  have hkept : ∀ r ∈ s.started, (new limit).Kept as r → s.current = some r.id := by
    intro r hr ⟨hc, hl⟩
    rcases howned r hr with h | h | h
    · exact h
    · cases hc.symm.trans h
    · exact absurd h hl
  refine ⟨?_, hids, howned, ?_, numbers_eq (new limit) as, ?_, fun more => current_acts_of_spares⟩
  · cases hc : s.current with
    | none => exact .inl rfl
    | some id =>
      have hh := head?_of_current limit as hc
      rw [hids, List.head?_reverse] at hh
      exact .inr hh.symm
  · intro q hq r hr hkq hkr
    have hid : q.id = r.id := Option.some.inj ((hkept q hq hkq).symm.trans (hkept r hr hkr))
    exact List.inj_on_of_nodup_map (nodup_ids limit as) hq hr hid
  · intro m tool argument e he
    cases hm : m.start tool argument with
    | ok b =>
      rw [start_of_ok hm] at he
      cases he
    | error e' =>
      rw [start_of_error hm]
      refine ⟨s.cancelCurrent_current, fun id hc => ?_⟩
      obtain ⟨r, hr⟩ := run?_of_current limit as hc
      exact isCancelled_cancelCurrent hc hr

end BuildWatch.Runs
