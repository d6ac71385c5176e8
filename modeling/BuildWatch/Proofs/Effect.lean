import BuildWatch.Proofs.Driving
import BuildWatch.Proofs.Service

namespace BuildWatch

def Edit.file? : Edit → Option Path
  | .set file _ => some file
  | .erase file => some file
  | .clear => none

theorem Store.find?_applyAll {q : Path} {edits : List Edit}
    (h : ∀ e ∈ edits, ∃ file, e.file? = some file ∧ file.components ≠ q.components) (s : Store) :
    (s.applyAll edits).files.find? q = s.files.find? q := by
  induction edits generalizing s with
  | nil => rfl
  | cons e edits ih =>
    obtain ⟨⟨file, hfile, hq⟩, hrest⟩ := List.forall_mem_cons.mp h
    refine (ih hrest (s.apply e)).trans ?_
    cases e with
    | clear => cases hfile
    | erase p =>
      obtain rfl := Option.some.inj hfile
      exact FileMap.find?_erase hq s.files
    | set p ds =>
      obtain rfl := Option.some.inj hfile
      rw [apply, set]
      split
      · exact FileMap.find?_erase hq s.files
      · exact FileMap.find?_alter hq s.files _

/-- What an operation of a publisher gives off by what was published before it, and what is
published after it. -/
inductive Effect (published : List Path) : List Edit → List Path → Prop where
  | keeps : Effect published [] published
  | clears : Effect published (published.map .erase) []
  | replaces {stale : List Path} {m : DiagnosticMap} : stale ⊆ published → m.Sound →
    Effect published (stale.map .erase ++ m.toList.map fun e => .set e.1 e.2) m.paths

namespace Effect

variable {published after : List Path} {edits : List Edit}

theorem after_clears (h : Effect [] edits after) :
    Effect published (published.map .erase ++ edits) after := by
  cases h with
  | keeps => exact (List.append_nil _).symm ▸ clears
  | clears => exact (List.append_nil _).symm ▸ clears
  | replaces hstale hm =>
    rw [List.subset_nil.mp hstale]
    exact replaces (List.Subset.refl published) hm

theorem edit_cases (h : Effect published edits after) {e : Edit} (he : e ∈ edits) :
    (∃ file ∈ published, e = .erase file) ∨ ∃ file ∈ after, ∃ ds, e = .set file ds := by
  cases h with
  | keeps => cases he
  | clears =>
    obtain ⟨file, hfile, rfl⟩ := List.mem_map.mp he
    exact .inl ⟨file, hfile, rfl⟩
  | replaces hstale hm =>
    rcases List.mem_append.mp he with he | he
    · obtain ⟨file, hfile, rfl⟩ := List.mem_map.mp he
      exact .inl ⟨file, hstale hfile, rfl⟩
    · obtain ⟨entry, hentry, rfl⟩ := List.mem_map.mp he
      exact .inr ⟨entry.1, List.mem_map_of_mem hentry, entry.2, rfl⟩

theorem clear_not_mem (h : Effect published edits after) : Edit.clear ∉ edits := by
  intro hmem
  rcases h.edit_cases hmem with ⟨_, -, he⟩ | ⟨_, -, _, he⟩
  · cases he
  · cases he

theorem find?_eq (h : Effect published edits after) {q : Path}
    (hbefore : ∀ file ∈ published, file.components ≠ q.components)
    (hset : ∀ file ds, Edit.set file ds ∈ edits → file.components ≠ q.components) (s : Store) :
    (s.applyAll edits).files.find? q = s.files.find? q := by
  refine Store.find?_applyAll (fun e he => ?_) s
  rcases h.edit_cases he with ⟨file, hfile, rfl⟩ | ⟨file, -, ds, rfl⟩
  · exact ⟨file, rfl, hbefore file hfile⟩
  · exact ⟨file, rfl, hset file ds he⟩

theorem find?_eq_of_apart (h : Effect published edits after) {q : Path}
    (hbefore : ∀ file ∈ published, file.components ≠ q.components)
    (hafter : ∀ file ∈ after, file.components ≠ q.components) (s : Store) :
    (s.applyAll edits).files.find? q = s.files.find? q := by
  refine h.find?_eq hbefore (fun file ds he => ?_) s
  rcases h.edit_cases he with ⟨_, -, heq⟩ | ⟨_, hfile, _, heq⟩
  · cases heq
  · cases heq
    exact hafter file hfile

theorem get?_congr (h : Effect published edits after) {s t : Store} (hs : s.files.Sorted)
    (ht : t.files.Sorted)
    (hst : ∀ file ∈ published, s.get? file = t.get? file) :
    ∀ file ∈ after, (s.applyAll edits).get? file = (t.applyAll edits).get? file := by
  intro file hfile
  cases h with
  | keeps => exact hst file hfile
  | clears => cases hfile
  | @replaces stale m _ hm =>
    have hvalue : ∀ {u : Store}, u.files.Sorted →
        (u.applyAll (stale.map .erase ++ m.toList.map fun e => .set e.1 e.2)).get? file =
          m.get? file := by
      intro u hu
      have hget := Store.get?_applyAll_set (Store.sorted_applyAll hu (stale.map .erase)) m.toList
        hm.sorted hm.full file
      have hin : (m.get? file).isSome := by
        refine Option.isSome_iff_ne_none.mpr fun hnone => ?_
        exact FileMap.get?_eq_none_iff.mp hnone (List.mem_map_of_mem hfile)
      rw [Store.applyAll_append, hget]
      exact Option.or_of_isSome hin
    rw [hvalue hs, hvalue ht]

end Effect

namespace Publisher

variable (p : Publisher)

theorem effect_dropRun (o : Outcome) :
    Effect p.published (p.dropRun o).2.edits (p.dropRun o).1.published := by
  rw [dropRun]
  split
  · exact .keeps
  · exact .clears

theorem dropRun_cases (o : Outcome) :
    p.dropRun o = (p, .none) ∨
      (p.dropRun o).2.edits = p.published.map .erase ∧ (p.dropRun o).1.published = [] := by
  rw [dropRun]
  split
  · exact .inl rfl
  · exact .inr ⟨rfl, rfl⟩

theorem published_startRun (m : Execution.Machine) (t : Trigger) :
    (p.startRun m t).1.published = p.published := by
  simp only [startRun]
  split
  · rfl
  · split <;> rfl

theorem effect_publish (records : List Record) (run : AwaitedRun) :
    Effect p.published (p.publish records run).2.1 (p.publish records run).1.published :=
  .replaces List.filter_sublist.subset
    (DiagnosticMap.sound_retain (DiagnosticMap.sound_ofRecords p.isPrimary records) _)

theorem effect_conclude (id : RunId) (result : Except Failure (List Record)) :
    Effect p.published (p.conclude id result).2.edits (p.conclude id result).1.published := by
  rw [conclude]
  split
  · exact .keeps
  · next run _ =>
    split
    · cases result with
      | error e => exact .keeps
      | ok records => exact (p.released id).effect_publish records run
    · exact .keeps

theorem effect_collect (id : RunId) :
    Effect p.published (p.collect id).2.edits (p.collect id).1.published := by
  rw [collect]
  split
  · exact p.effect_conclude id _
  · exact .keeps

theorem effect_replace (m : Execution.Machine) (t : Trigger) :
    (p.replace m t).2.1 = [] ∧ (p.replace m t).1.published = p.published ∨
      (p.replace m t).2.1 = p.published.map .erase ∧ (p.replace m t).1.published = [] := by
  have hpub := (p.supersede.1).published_startRun m t
  rcases p.dropRun_cases .superseded with h | ⟨hedits, hp⟩
  · exact .inl ⟨congrArg (fun d => d.2.edits) h, hpub.trans (congrArg (fun d => d.1.published) h)⟩
  · exact .inr ⟨hedits, hpub.trans hp⟩

theorem effect_after_replace (m : Execution.Machine) (t : Trigger) {edits : List Edit}
    {after : List Path} (h : Effect (p.replace m t).1.published edits after) :
    Effect p.published ((p.replace m t).2.1 ++ edits) after := by
  rcases p.effect_replace m t with ⟨hedits, hp⟩ | ⟨hedits, hp⟩
  · rw [hedits]
    exact hp ▸ h
  · rw [hedits]
    exact (hp ▸ h).after_clears

theorem effect_run (m : Execution.Machine) (t : Trigger) :
    Effect p.published (p.run m t).2.edits (p.run m t).1.published := by
  have hr : ∀ edits after, Effect (p.replace m t).1.published edits after →
      Effect p.published ((p.replace m t).2.1 ++ edits) after :=
    fun _ _ => p.effect_after_replace m t
  rw [run]
  revert hr
  generalize p.replace m t = r
  obtain ⟨q, edits, begun⟩ := r
  intro hr
  cases begun with
  | error report => exact List.append_nil edits ▸ hr _ _ .keeps
  | ok id => exact hr _ _ ((q.settle id).effect_collect id)

theorem effect_launch (m : Execution.Machine) (t : Trigger) :
    Effect p.published (p.launch m t).2.edits (p.launch m t).1.published := by
  have hr := p.effect_after_replace m t .keeps
  rw [List.append_nil] at hr
  rw [launch]
  revert hr
  generalize p.replace m t = r
  obtain ⟨q, edits, begun⟩ := r
  cases begun with
  | error report => exact id
  | ok => exact id

theorem effect_operate (op : Operation) :
    Effect p.published (p.operate op).2.edits (p.operate op).1.published := by
  cases op with
  | run m t => exact p.effect_run m t
  | launch m t => exact p.effect_launch m t
  | cancel => exact p.effect_dropRun .cancelled
  | settle id => exact .keeps

end Publisher

namespace Service

theorem effect_handle (p : Publisher) (m : Execution.Machine) (c : Command) :
    Effect p.published (handle p m c).2.2.edits (handle p m c).1.published := by
  cases c with
  | cancel => exact p.effect_dropRun .cancelled
  | trigger t =>
    obtain ⟨hp, hout⟩ := handle_trigger p m t
    obtain ⟨hq, hedits⟩ := p.launch_eq m t
    rw [hp, hout, ← hq, ← hedits]
    exact p.effect_launch m t

theorem effect_step (v : Service) (e : Event) :
    Effect v.publisher.published (v.step e).2.edits (v.step e).1.publisher.published := by
  cases e with
  | send c =>
    rw [step, send]
    split <;> exact .keeps
  | close => exact .keeps
  | settle id => exact .keeps
  | next m =>
    rw [step, next]
    split
    · exact .keeps
    · split
      · exact effect_handle v.publisher m _
      · split
        · exact .keeps
        · exact v.publisher.effect_dropRun .cancelled
  | collect =>
    rw [step]
    split
    · exact .keeps
    · rw [collect]
      split
      · exact .keeps
      · split
        · exact .keeps
        · exact v.publisher.effect_conclude _ _

end Service

end BuildWatch
