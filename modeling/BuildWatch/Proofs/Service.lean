import BuildWatch.Proofs.Standing
import BuildWatch.Service

namespace BuildWatch.Service

/-- The turn of the publisher that an event brings. Most events bring none: something is sent or
goes on in the background, or there is nothing to take. -/
def turn? (v : Service) : Event → Option Turn
  | .next m =>
    if v.hasEnded then none
    else
      match v.queue with
      | .trigger t :: _ => some (.took m t)
      | .cancel :: _ => some .stopped
      | [] => if v.isOpen then none else some .shut
  | .collect =>
    if v.hasEnded then none
    else
      match v.pending with
      | none => none
      | some id => (v.publisher.runs.result? id).map fun _ => .finished
  | _ => none

def turns (v : Service) : List Event → List Turn
  | [] => []
  | e :: es => (v.turn? e).toList ++ (v.step e).1.turns es

/-- All that can bring a turn, and what was there at that time. -/
inductive Brings (v : Service) : Event → Turn → Prop where
  | trigger (m : Execution.Machine) (t : Trigger) (rest : List Command) :
    v.queue = .trigger t :: rest → Brings v (.next m) (.took m t)
  | cancel (m : Execution.Machine) (rest : List Command) :
    v.queue = .cancel :: rest → Brings v (.next m) .stopped
  | shut (m : Execution.Machine) : v.queue = [] → v.isOpen = false → Brings v (.next m) .shut
  | collect (id : RunId) (result : Except Failure (List Record)) :
    v.pending = some id → v.publisher.runs.result? id = some result → Brings v .collect .finished

def fresh (s : Settings) (isPrimary : SourceTest) : Service :=
  ofPublisher ((Publisher.new s).withSourceTest isPrimary)

/-- The pending run is the one that the publisher awaits, if there is one at all. -/
structure Follows (s : Settings) (isPrimary : SourceTest) (v : Service) (h : History) : Prop where
  publisher : v.publisher.Follows s isPrimary h
  pending : ∀ id, v.pending = some id → v.publisher.awaited.map AwaitedRun.id = some id

def Paired (v : Service) : Prop := v.pending = v.publisher.awaited.map AwaitedRun.id

variable {s : Settings} {isPrimary : SourceTest} {v : Service} {h : History}

theorem follows_ofPublisher {p : Publisher} (hp : p.Follows s isPrimary h) :
    (ofPublisher p).Follows s isPrimary h := ⟨hp, nofun⟩

theorem follows_fresh (s : Settings) (isPrimary : SourceTest) :
    (fresh s isPrimary).Follows s isPrimary [] :=
  follows_ofPublisher (Publisher.follows_new s isPrimary)

theorem paired_of_none (hp : v.pending = none) (ha : v.publisher.awaited = none) : v.Paired := by
  rw [Paired, hp, ha]
  rfl

theorem handle_trigger (p : Publisher) (m : Execution.Machine) (t : Trigger) :
    (handle p m (.trigger t)).1 = (p.turn (.took m t)).1 ∧
      (handle p m (.trigger t)).2.2 = (p.turn (.took m t)).2 := by
  unfold handle Publisher.turn
  generalize p.supersede = d
  obtain ⟨q, out⟩ := d
  dsimp only
  cases q.startRun m t with
  | mk r begun =>
    cases begun with
    | error report => exact ⟨rfl, rfl⟩
    | ok id => exact ⟨rfl, rfl⟩

theorem pending_trigger {p : Publisher} (hp : p.InStep) (m : Execution.Machine) (t : Trigger) :
    (handle p m (.trigger t)).2.1 =
      (handle p m (.trigger t)).1.awaited.map AwaitedRun.id := by
  have hi := Publisher.idle_dropRun hp .superseded
  cases ha : (p.dropRun .superseded).1.settings.attempt m t with
  | error e =>
    simp only [handle, Publisher.supersede, Publisher.startRun_of_error hi ha, hi.awaited]
    rfl
  | ok b =>
    simp only [handle, Publisher.supersede, Publisher.startRun_of_ok hi ha]
    rfl

theorem brings_of_turn? {e : Event} {τ : Turn} (ht : v.turn? e = some τ) :
    v.hasEnded = false ∧ v.Brings e τ := by
  cases e with
  | send c => cases ht
  | close => cases ht
  | settle id => cases ht
  | next m =>
    cases hend : v.hasEnded with
    | true => simp [turn?, hend] at ht
    | false =>
      simp only [turn?, hend, Bool.false_eq_true, if_false] at ht
      refine ⟨rfl, ?_⟩
      cases hq : v.queue with
      | nil =>
        cases hopen : v.isOpen with
        | true => simp [hq, hopen] at ht
        | false =>
          simp only [hq, hopen, Bool.false_eq_true, if_false, Option.some.injEq] at ht
          exact ht ▸ .shut m hq hopen
      | cons c rest =>
        cases c with
        | trigger t =>
          simp only [hq, Option.some.injEq] at ht
          exact ht ▸ .trigger m t rest hq
        | cancel =>
          simp only [hq, Option.some.injEq] at ht
          exact ht ▸ .cancel m rest hq
  | collect =>
    cases hend : v.hasEnded with
    | true => simp [turn?, hend] at ht
    | false =>
      simp only [turn?, hend, Bool.false_eq_true, if_false] at ht
      refine ⟨rfl, ?_⟩
      cases hid : v.pending with
      | none => simp [hid] at ht
      | some id =>
        simp only [hid] at ht
        obtain ⟨result, hr, ht⟩ := Option.map_eq_some_iff.mp ht
        exact ht ▸ .collect id result hid hr

/-- A step without a turn gives nothing off, and at most lets a process go on. -/
theorem step_of_none {e : Event} (ht : v.turn? e = none) :
    (v.step e).2 = .none ∧ (v.step e).1.pending = v.pending ∧
      ((v.step e).1.publisher = v.publisher ∨
        ∃ id, (v.step e).1.publisher = v.publisher.settle id) := by
  cases e with
  | send c =>
    refine ⟨rfl, ?_⟩
    cases hopen : v.isOpen <;> simp [step, send, hopen]
  | close => exact ⟨rfl, rfl, .inl rfl⟩
  | settle id => exact ⟨rfl, rfl, .inr ⟨id, rfl⟩⟩
  | next m =>
    cases hend : v.hasEnded with
    | true => simp [step, next, hend]
    | false =>
      simp only [turn?, hend, Bool.false_eq_true, if_false] at ht
      split at ht
      · cases ht
      · cases ht
      · next hq =>
        cases hopen : v.isOpen with
        | true => simp [step, next, hend, hq, hopen]
        | false => simp [hopen] at ht
  | collect =>
    cases hend : v.hasEnded with
    | true => simp [step, hend]
    | false =>
      simp only [turn?, hend, Bool.false_eq_true, if_false] at ht
      cases hid : v.pending with
      | none => simp [step, collect, hend, hid]
      | some id =>
        have hr : v.publisher.runs.result? id = none := by simpa [hid] using ht
        simp [step, collect, hend, hid, hr]

theorem ready_of_brings (hv : v.Follows s isPrimary h) {e : Event} {τ : Turn}
    (hb : v.Brings e τ) (hτ : τ = .finished) : v.publisher.Ready := by
  cases hb with
  | trigger | cancel | shut => cases hτ
  | collect id result hid hr =>
    obtain ⟨run, hrun, rfl⟩ := Option.map_eq_some_iff.mp (hv.pending id hid)
    exact ⟨run, result, hrun, hr⟩

/-- A step that brings a turn does to the publisher what the turn does and gives off the same. What
the publisher awaits after it is pending. -/
theorem step_of_brings (hv : v.Follows s isPrimary h) (hend : v.hasEnded = false) {e : Event}
    {τ : Turn} (hb : v.Brings e τ) :
    (v.step e).1.publisher = (v.publisher.turn τ).1 ∧ (v.step e).2 = (v.publisher.turn τ).2 ∧
      (v.step e).1.Paired := by
  have hstep := Publisher.inStep_of_flies hv.publisher.flies
  cases hb with
  | trigger m t rest hq =>
    obtain ⟨h1, h2⟩ := handle_trigger v.publisher m t
    simp only [step, next, hend, hq, Bool.false_eq_true, if_false]
    exact ⟨h1, h2, pending_trigger hstep m t⟩
  | cancel m rest hq =>
    simp only [step, next, hend, hq, Bool.false_eq_true, if_false]
    exact ⟨rfl, rfl, paired_of_none rfl (Publisher.idle_dropRun hstep _).awaited⟩
  | shut m hq hopen =>
    simp only [step, next, hend, hq, hopen, Bool.false_eq_true, if_false]
    exact ⟨rfl, rfl, paired_of_none rfl (Publisher.idle_dropRun hstep _).awaited⟩
  | collect id result hid hr =>
    obtain ⟨run, hrun, rfl⟩ := Option.map_eq_some_iff.mp (hv.pending id hid)
    have hc : v.publisher.turn .finished = v.publisher.conclude run.id result := by
      simp only [Publisher.turn, hrun, Publisher.collect, hr]
    have hf := Publisher.follows_finished hv.publisher ⟨run, result, hrun, hr⟩
    have hi : (v.publisher.turn .finished).1.awaited = none := Publisher.Idle.awaited hf.flies
    rw [hc] at hi ⊢
    simp only [step, collect, hend, hid, hr, Bool.false_eq_true, if_false, true_and]
    exact paired_of_none rfl hi

theorem follows_step (hv : v.Follows s isPrimary h) (e : Event) :
    (v.step e).1.Follows s isPrimary ((v.turn? e).toList ++ h) := by
  cases ht : v.turn? e with
  | none =>
    obtain ⟨-, hpend, hpub | ⟨id, hpub⟩⟩ := step_of_none ht
    · exact ⟨by rw [hpub]; exact hv.publisher, by rw [hpend, hpub]; exact hv.pending⟩
    · exact ⟨by rw [hpub]; exact Publisher.follows_settle hv.publisher id,
        by rw [hpend, hpub]; exact hv.pending⟩
  | some τ =>
    obtain ⟨hend, hb⟩ := brings_of_turn? ht
    obtain ⟨hpub, -, hpair⟩ := step_of_brings hv hend hb
    refine ⟨?_, fun id hid => hpair.symm.trans hid⟩
    rw [hpub]
    exact Publisher.follows_turn hv.publisher τ (ready_of_brings hv hb)

theorem paired_step (hv : v.Follows s isPrimary h) (hp : v.Paired) (e : Event) :
    (v.step e).1.Paired := by
  cases ht : v.turn? e with
  | none =>
    obtain ⟨-, hpend, hpub | ⟨id, hpub⟩⟩ := step_of_none ht
    · rwa [Paired, hpend, hpub]
    · rwa [Paired, hpend, hpub]
  | some τ =>
    obtain ⟨hend, hb⟩ := brings_of_turn? ht
    exact (step_of_brings hv hend hb).2.2

theorem reverse_turns_cons (v : Service) (e : Event) (es : List Event) (h : History) :
    (v.turns (e :: es)).reverse ++ h =
      ((v.step e).1.turns es).reverse ++ ((v.turn? e).toList ++ h) := by
  rw [turns, List.reverse_append, List.append_assoc]
  cases v.turn? e <;> rfl

theorem follows_run (hv : v.Follows s isPrimary h) (es : List Event) :
    (v.run es).1.Follows s isPrimary ((v.turns es).reverse ++ h) := by
  induction es generalizing v h with
  | nil => exact hv
  | cons e es ih =>
    rw [reverse_turns_cons]
    exact ih (follows_step hv e)

theorem paired_run (hv : v.Follows s isPrimary h) (hp : v.Paired) (es : List Event) :
    (v.run es).1.Paired := by
  induction es generalizing v h with
  | nil => exact hp
  | cons e es ih => exact ih (follows_step hv e) (paired_step hv hp e)

theorem paired_of_turns (hv : v.Follows s isPrimary h) {es : List Event}
    (hτs : v.turns es ≠ []) : (v.run es).1.Paired := by
  induction es generalizing v h with
  | nil => exact absurd rfl hτs
  | cons e es ih =>
    cases ht : v.turn? e with
    | none =>
      rw [turns, ht] at hτs
      exact ih (follows_step hv e) hτs
    | some τ =>
      obtain ⟨hend, hb⟩ := brings_of_turn? ht
      exact paired_run (follows_step hv e) (step_of_brings hv hend hb).2.2 es

theorem displays_step (hv : v.Follows s isPrimary h) {store : Store}
    (hd : store.Displays s isPrimary v.publisher h) (e : Event) :
    (store.applyAll (v.step e).2.edits).Displays s isPrimary (v.step e).1.publisher
      ((v.turn? e).toList ++ h) := by
  cases ht : v.turn? e with
  | none =>
    obtain ⟨hout, -, hpub | ⟨id, hpub⟩⟩ := step_of_none ht
    · rw [hout, hpub]
      exact hd
    · rw [hout, hpub]
      exact ⟨hd.sorted, hd.published, hd.contents⟩
  | some τ =>
    obtain ⟨hend, hb⟩ := brings_of_turn? ht
    obtain ⟨hpub, hout, -⟩ := step_of_brings hv hend hb
    rw [hout, hpub]
    exact Publisher.displays_turn hv.publisher hd τ (ready_of_brings hv hb)

theorem displays_run (hv : v.Follows s isPrimary h) {store : Store}
    (hd : store.Displays s isPrimary v.publisher h) (es : List Event) :
    (store.applyAll (v.run es).2.edits).Displays s isPrimary (v.run es).1.publisher
      ((v.turns es).reverse ++ h) := by
  induction es generalizing v h store with
  | nil => exact hd
  | cons e es ih =>
    have hi := ih (follows_step hv e) (displays_step hv hd e)
    rw [← Store.applyAll_append] at hi
    rw [reverse_turns_cons]
    exact hi

theorem hasEnded_step (hend : v.hasEnded = false) (e : Event) :
    (v.step e).1.hasEnded = true ↔ v.turn? e = some .shut := by
  cases e with
  | send c => cases hopen : v.isOpen <;> simp [step, send, turn?, hopen, hend]
  | close => simp [step, close, turn?, hend]
  | settle id => simp [step, settle, turn?, hend]
  | next m =>
    cases hq : v.queue with
    | nil => cases hopen : v.isOpen <;> simp [step, next, turn?, hend, hq, hopen]
    | cons c rest => cases c <;> simp [step, next, turn?, hend, hq]
  | collect =>
    cases hid : v.pending with
    | none => simp [step, collect, turn?, hend, hid]
    | some id =>
      cases hr : v.publisher.runs.result? id <;>
        simp [step, collect, turn?, hend, hid, hr]

theorem hasEnded_step_of_ne (hend : v.hasEnded = false) {e : Event} (ht : v.turn? e ≠ some .shut) :
    (v.step e).1.hasEnded = false :=
  Bool.eq_false_iff.mpr fun h => ht ((hasEnded_step hend e).mp h)

theorem hasEnded_step_of_ended (hend : v.hasEnded = true) (e : Event) :
    (v.step e).1.hasEnded = true := by
  cases e with
  | send c => cases hopen : v.isOpen <;> simp [step, send, hopen, hend]
  | close => exact hend
  | settle id => exact hend
  | next m => simp [step, next, hend]
  | collect => simp [step, hend]

theorem turn?_of_ended (hend : v.hasEnded = true) (e : Event) : v.turn? e = none := by
  cases h : v.turn? e with
  | none => rfl
  | some τ => cases hend.symm.trans (brings_of_turn? h).1

theorem run_of_ended (hend : v.hasEnded = true) (es : List Event) :
    (v.run es).2 = .none ∧ v.turns es = [] ∧ (v.run es).1.hasEnded = true := by
  induction es generalizing v with
  | nil => exact ⟨rfl, rfl, hend⟩
  | cons e es ih =>
    have ht := turn?_of_ended hend e
    obtain ⟨hout, hturns, hrest⟩ := ih (hasEnded_step_of_ended hend e)
    refine ⟨?_, by rw [turns, ht, hturns]; rfl, hrest⟩
    change (v.step e).2 ++ ((v.step e).1.run es).2 = Output.none
    rw [(step_of_none ht).1, hout]
    rfl

end BuildWatch.Service
