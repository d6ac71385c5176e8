import BuildWatch.Proofs.Service.InStep

namespace BuildWatch

def Turn.command? : Turn → Option Command
  | .took _ t => some (.trigger t)
  | .stopped => some .cancel
  | .finished | .shut => none

namespace Service

def Event.isNext : Event → Bool
  | .next _ => true
  | _ => false

/-- The commands that clients get into the queue, up to the moment when they close it. -/
def accepted : List Event → List Command
  | [] => []
  | .send c :: es => c :: accepted es
  | .close :: _ => []
  | _ :: es => accepted es

variable {s : Settings} {isPrimary : SourceTest} {v : Service} {h : History}

theorem run_append (v : Service) (es fs : List Event) :
    v.run (es ++ fs) =
      (((v.run es).1.run fs).1, (v.run es).2 ++ ((v.run es).1.run fs).2) := by
  induction es generalizing v with
  | nil => rfl
  | cons e es ih =>
    simp only [List.cons_append, run, ih, Output.append_assoc]

theorem intake_collect (v : Service) :
    (v.step .collect).1.queue = v.queue ∧ (v.step .collect).1.isOpen = v.isOpen := by
  simp only [step, collect]
  split
  · exact ⟨rfl, rfl⟩
  · split
    · exact ⟨rfl, rfl⟩
    · split <;> exact ⟨rfl, rfl⟩

/-- What is queued or will be is carried out or stays in the queue. -/
theorem commands_step (v : Service) (e : Event) (es : List Event) :
    v.queue ++ (if v.isOpen then accepted (e :: es) else []) =
      ((v.turn? e).bind Turn.command?).toList ++ ((v.step e).1.queue ++
        (if (v.step e).1.isOpen then accepted es else [])) := by
  cases e with
  | send c => cases ho : v.isOpen <;> simp [step, send, turn?, accepted, ho]
  | close => simp [step, close, turn?, accepted]
  | settle id => rfl
  | next m =>
    cases hend : v.hasEnded with
    | true => simp [step, next, turn?, accepted, hend]
    | false =>
      cases hq : v.queue with
      | nil => cases ho : v.isOpen <;> simp [step, next, turn?, accepted, hend, hq, ho, Turn.command?]
      | cons c rest => cases c <;> simp [step, next, turn?, accepted, hend, hq, Turn.command?]
  | collect =>
    obtain ⟨hq, ho⟩ := intake_collect v
    have hc : (v.turn? .collect).bind Turn.command? = none := by
      cases ht : v.turn? .collect with
      | none => rfl
      | some τ => cases (brings_of_turn? ht).2; rfl
    rw [hq, ho, hc]
    rfl

end Service

end BuildWatch
