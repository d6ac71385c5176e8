import BuildWatch.Runs

namespace BuildWatch

def Execution.Behaviour.result? (limit : Option UInt64) (b : Execution.Behaviour) :
    Option (Except Failure (List Record)) :=
  (Execution.outcome? limit b).map fun out => out.bind fun payload =>
    (Record.parseAll payload).mapError .payload

theorem Execution.Behaviour.failure_of_result? {limit : Option UInt64} {b : Execution.Behaviour}
    {e : Failure} (h : b.result? limit = some (.error e)) :
    e ≠ .cancelled ∧ ∀ c, e ≠ .start c := by
  obtain ⟨out, hout, h⟩ := Option.map_eq_some_iff.mp h
  have hfail : ∀ f, out = .error f → f ≠ .cancelled ∧ ∀ c, f ≠ .start c := by
    rintro f rfl
    unfold Execution.outcome? at hout
    split at hout
    · rw [Option.some.injEq, Execution.outputOf] at hout
      split at hout
      · cases hout; simp
      · split at hout
        · cases hout
        · cases hout; simp
    · cases hout; simp
    · cases hout
  cases out with
  | error f =>
    obtain rfl : f = e := Except.error.inj h
    exact hfail f rfl
  | ok payload =>
    change (Record.parseAll payload).mapError .payload = .error e at h
    cases hp : Record.parseAll payload with
    | ok records =>
      rw [hp] at h
      cases h
    | error p =>
      rw [hp] at h
      obtain rfl : Failure.payload p = e := Except.error.inj h
      simp

namespace Run

/-- The slot holds nothing but what the process comes to, and is given up only after a
cancellation. -/
def Honest (limit : Option UInt64) (r : Run) : Prop :=
  match r.slot with
  | .waiting => True
  | .filled out => Execution.outcome? limit r.behaviour = some out
  | .closed => r.cancelled = true

theorem honest_settle {limit : Option UInt64} {r : Run} (h : r.Honest limit) :
    (r.settle limit).Honest limit := by
  unfold settle
  split
  · split
    · assumption
    · split
      · assumption
      · exact h
  · exact h

theorem settle_eq (limit : Option UInt64) (r : Run) :
    ∃ slot, r.settle limit = { r with slot } := by
  unfold settle
  split
  · split
    · exact ⟨_, rfl⟩
    · split
      · exact ⟨_, rfl⟩
      · exact ⟨_, rfl⟩
  · exact ⟨_, rfl⟩

theorem result?_of_honest {limit : Option UInt64} {r : Run} (h : r.Honest limit)
    (hc : r.cancelled = false) {result : Except Failure (List Record)}
    (hr : r.result? = some result) : r.behaviour.result? limit = some result := by
  obtain ⟨id, b, cancelled, slot⟩ := r
  cases slot with
  | waiting => cases hr
  | closed => cases hc.symm.trans h
  | filled out =>
    have ho : Execution.outcome? limit b = some out := h
    rw [Execution.Behaviour.result?, ho, ← hr]
    cases out <;> rfl

theorem result?_settle {limit : Option UInt64} {r : Run} (h : r.Honest limit)
    (hc : r.cancelled = false) : (r.settle limit).result? = r.behaviour.result? limit := by
  obtain ⟨id, b, cancelled, slot⟩ := r
  obtain rfl : cancelled = false := hc
  cases slot with
  | closed => cases h
  | waiting =>
    rw [Execution.Behaviour.result?]
    cases ho : Execution.outcome? limit b with
    | none => simp [settle, ho, result?]
    | some out => cases out <;> simp [settle, ho, result?, Except.bind]
  | filled out =>
    have ho : Execution.outcome? limit b = some out := h
    rw [Execution.Behaviour.result?, ho]
    cases out <;> rfl

end Run

namespace Runs

/-- Runs are numbered up to the last number given out, and hand over what is theirs. -/
structure Sound (s : Runs) : Prop where
  numbered : ∀ r ∈ s.started, r.id.number ≤ s.issued
  honest : ∀ r ∈ s.started, r.Honest s.limit

theorem sound_new (limit : Option UInt64) : (new limit).Sound :=
  ⟨by simp [new], by simp [new]⟩

theorem sound_updateRun {s : Runs} (hs : s.Sound) (id : RunId) (f : Run → Run)
    (hid : ∀ r, (f r).id = r.id) (hf : ∀ r, r.Honest s.limit → (f r).Honest s.limit) :
    (s.updateRun id f).Sound := by
  constructor
  · intro r hr
    obtain ⟨q, hq, rfl⟩ := List.mem_map.mp hr
    have hn := hs.numbered q hq
    split
    · rwa [hid]
    · exact hn
  · intro r hr
    obtain ⟨q, hq, rfl⟩ := List.mem_map.mp hr
    have hh := hs.honest q hq
    split
    · exact hf q hh
    · exact hh

theorem run?_updateRun (s : Runs) (id : RunId) (f : Run → Run) (hid : ∀ r, (f r).id = r.id)
    (j : RunId) :
    (s.updateRun id f).run? j = (s.run? j).map fun r => if r.id = id then f r else r := by
  have hp : ((fun r : Run => decide (r.id = j)) ∘ fun r => if r.id = id then f r else r) =
      fun r : Run => decide (r.id = j) := by
    funext r
    by_cases h : r.id = id
    · simp [h, hid]
    · simp [h]
  rw [run?, run?, updateRun, List.find?_map, hp]

theorem sound_settle {s : Runs} (hs : s.Sound) (id : RunId) : (s.settle id).Sound :=
  sound_updateRun hs id _ (fun r => by obtain ⟨_, h⟩ := r.settle_eq s.limit; rw [h])
    fun _ h => Run.honest_settle h

theorem run?_settle (s : Runs) (id j : RunId) :
    (s.settle id).run? j = (s.run? j).map fun r => if r.id = id then r.settle s.limit else r :=
  run?_updateRun s id _ (fun r => by obtain ⟨_, h⟩ := r.settle_eq s.limit; rw [h]) j

theorem sound_cancelRun {s : Runs} (hs : s.Sound) (id : RunId) : (s.cancelRun id).Sound := by
  refine sound_updateRun hs id _ (fun _ => rfl) fun r h => ?_
  obtain ⟨_, _, _, slot⟩ := r
  cases slot with
  | waiting => trivial
  | filled out => exact h
  | closed => rfl

theorem sound_forget {s : Runs} (hs : s.Sound) (id : RunId) : (s.forget id).Sound := by
  rw [forget]
  split
  · exact ⟨hs.numbered, hs.honest⟩
  · exact hs

theorem sound_cancel {s : Runs} (hs : s.Sound) (id : RunId) : (s.cancel id).Sound :=
  sound_forget (sound_cancelRun hs id) id

theorem cancelCurrent_limit (s : Runs) : s.cancelCurrent.limit = s.limit := by
  unfold cancelCurrent cancel forget
  split
  · split <;> rfl
  · rfl

theorem cancelCurrent_issued (s : Runs) : s.cancelCurrent.issued = s.issued := by
  unfold cancelCurrent cancel forget
  split
  · split <;> rfl
  · rfl

theorem cancelCurrent_current (s : Runs) : s.cancelCurrent.current = none := by
  unfold cancelCurrent cancel forget
  split
  · next id h => rw [if_pos (by exact h)]
  · assumption

theorem sound_cancelCurrent {s : Runs} (hs : s.Sound) : s.cancelCurrent.Sound := by
  unfold cancelCurrent
  split
  · exact sound_cancel hs _
  · exact hs

theorem run?_cancelRun (s : Runs) (id j : RunId) :
    (s.cancelRun id).run? j =
      (s.run? j).map fun r => if r.id = id then { r with cancelled := true } else r :=
  run?_updateRun s id (fun r => { r with cancelled := true }) (fun _ => rfl) j

theorem isCancelled_cancelCurrent {s : Runs} {id : RunId} {r : Run} (hc : s.current = some id)
    (hr : s.run? id = some r) : s.cancelCurrent.isCancelled id = true := by
  have hid : r.id = id := by simpa using List.find?_some hr
  have hforget : (s.cancelRun id).forget id = { s.cancelRun id with current := none } := if_pos hc
  have hrun : s.cancelCurrent.run? id = some { r with cancelled := true } := by
    simp only [cancelCurrent, hc, cancel, hforget]
    refine (run?_cancelRun s id id).trans ?_
    rw [hr, Option.map_some, if_pos hid]
  rw [isCancelled, hrun]
  rfl

theorem cancelCurrent_of_none {s : Runs} (h : s.current = none) : s.cancelCurrent = s := by
  rw [cancelCurrent, h]

def begun (s : Runs) (b : Execution.Behaviour) : Runs :=
  { s with
    issued := s.issued + 1
    current := some ⟨s.issued + 1⟩
    started := ⟨⟨s.issued + 1⟩, b, false, .waiting⟩ :: s.started }

theorem sound_begun {s : Runs} (hs : s.Sound) (b : Execution.Behaviour) : (s.begun b).Sound := by
  constructor
  · intro r hr
    rcases List.mem_cons.mp hr with rfl | hr
    · exact Nat.le_refl _
    · exact Nat.le_succ_of_le (hs.numbered r hr)
  · intro r hr
    rcases List.mem_cons.mp hr with rfl | hr
    · trivial
    · exact hs.honest r hr

end Runs

end BuildWatch
