import BuildWatch.Aggregation
import BuildWatch.Diagnostic.Store
import BuildWatch.Proofs.FileMap

namespace BuildWatch

namespace DiagnosticMap

structure Sound (s : DiagnosticMap) : Prop where
  sorted : s.files.Sorted
  full : ∀ e ∈ s.files.entries, e.2 ≠ []

theorem sound_empty : empty.Sound := ⟨FileMap.sorted_empty, fun _ h => nomatch h⟩

theorem sound_push {s : DiagnosticMap} (hs : s.Sound) (file : Path) (d : Diagnostic) :
    (s.push file d).Sound := by
  refine ⟨FileMap.sorted_alter hs.sorted file _, fun e he => ?_⟩
  rcases FileMap.mem_alterEntries he with h | ⟨-, o, h⟩
  · exact hs.full e h
  · rw [h]
    exact List.append_ne_nil_of_right_ne_nil _ (List.cons_ne_nil d [])

theorem sound_retain {s : DiagnosticMap} (hs : s.Sound) (keep : Path → Bool) :
    (s.retain keep).Sound :=
  ⟨FileMap.sorted_filter hs.sorted keep, fun e he => hs.full e (List.mem_filter.mp he).1⟩

theorem sound_ofRecords (isPrimary : SourceTest) (records : List Record) :
    (ofRecords isPrimary records).Sound := by
  have hfold : ∀ s : DiagnosticMap, s.Sound →
      (records.foldl (fun s r => s.push r.path (r.diagnostic isPrimary)) s).Sound := by
    induction records with
    | nil => exact fun s hs => hs
    | cons r records ih => exact fun s hs => ih _ (sound_push hs r.path _)
  exact hfold empty sound_empty

theorem contains_eq_false_iff {s : DiagnosticMap} {file : Path} :
    s.contains file = false ↔ s.get? file = none := by
  rw [contains, FileMap.contains_eq_isSome, get?, Option.isSome_eq_false_iff,
    Option.isNone_iff_eq_none]

end DiagnosticMap

namespace Store

theorem applyAll_append (s : Store) (a b : List Edit) :
    s.applyAll (a ++ b) = (s.applyAll a).applyAll b := List.foldl_append

theorem sorted_apply {s : Store} (hs : s.files.Sorted) (e : Edit) : (s.apply e).files.Sorted := by
  cases e with
  | set file ds =>
    rw [apply, set]
    split
    · exact FileMap.sorted_erase hs file
    · exact FileMap.sorted_insert hs file ds
  | erase file => exact FileMap.sorted_erase hs file
  | clear => exact FileMap.sorted_empty

theorem sorted_applyAll {s : Store} (hs : s.files.Sorted) (edits : List Edit) :
    (s.applyAll edits).files.Sorted := by
  induction edits generalizing s with
  | nil => exact hs
  | cons e edits ih => exact ih (sorted_apply hs e)

theorem get?_applyAll_erase (s : Store) (files : List Path) (q : Path) :
    (s.applyAll (files.map .erase)).get? q =
      if q.components ∈ files.map Path.components then none else s.get? q := by
  induction files generalizing s with
  | nil => rfl
  | cons file files ih =>
    have he : (s.erase file).get? q = if file.components = q.components then none else s.get? q :=
      FileMap.get?_erase s.files file q
    change ((s.erase file).applyAll (files.map .erase)).get? q = _
    rw [ih, he]
    by_cases hq : file.components = q.components
    · simp [hq]
    · simp [hq, Ne.symm hq]

theorem get?_applyAll_set {s : Store} (hs : s.files.Sorted) (es : List (Path × List Diagnostic))
    (hes : FileMap.Ascending es) (hfull : ∀ e ∈ es, e.2 ≠ []) (q : Path) :
    (s.applyAll (es.map fun e => .set e.1 e.2)).get? q =
      (FileMap.valueAt es q).or (s.get? q) := by
  induction es generalizing s with
  | nil => rfl
  | cons e es ih =>
    obtain ⟨k, ds⟩ := e
    have hds : ds ≠ [] := hfull (k, ds) List.mem_cons_self
    have hset : s.apply (.set k ds) = ⟨s.files.insert k ds⟩ := by
      simp [apply, set, hds]
    have hget := FileMap.get?_insert hs k ds q
    have hrest := ih (sorted_apply hs (.set k ds)) hes.of_cons
      fun e he => hfull e (List.mem_cons_of_mem _ he)
    rw [hset] at hrest
    change ((s.apply (.set k ds)).applyAll (es.map fun e => .set e.1 e.2)).get? q = _
    rw [hset, hrest, FileMap.valueAt_cons]
    change (FileMap.valueAt es q).or ((s.files.insert k ds).get? q) = _
    rw [hget]
    by_cases hq : k.components = q.components
    · have hn : FileMap.valueAt es q = none := FileMap.valueAt_eq_none_iff.mpr fun e he =>
        hq ▸ (Path.components_ne_of_lt (List.rel_of_pairwise_cons hes he)).symm
      simp [hq, hn]
    · simp only [if_neg hq]
      rfl

/-- Setting all files of `m`, after those that are not in it are erased, leaves what `m` holds. -/
theorem contents_replace {s : Store} (hs : s.files.Sorted) {shown : List Path}
    (hshown : s.files.keys.map Path.components = shown.map Path.components)
    {m : DiagnosticMap} (hm : m.Sound) :
    (s.applyAll ((shown.filter fun file => !m.contains file).map .erase ++
      m.toList.map fun e => .set e.1 e.2)).files.contents = m.files.contents := by
  refine FileMap.contents_eq (sorted_applyAll hs _) hm.sorted fun q => ?_
  rw [applyAll_append]
  have hset := get?_applyAll_set
    (sorted_applyAll hs ((shown.filter fun file => !m.contains file).map .erase))
    m.toList hm.sorted hm.full q
  rw [get?_applyAll_erase] at hset
  refine hset.trans ?_
  change (m.get? q).or _ = m.get? q
  cases hq : m.get? q with
  | some ds => rfl
  | none =>
    rw [Option.none_or]
    by_cases hk : q.components ∈ s.files.keys.map Path.components
    · obtain ⟨file, hfile, hc⟩ := List.mem_map.mp (hshown ▸ hk)
      have hstale : m.contains file = false := by
        rw [DiagnosticMap.contains_eq_false_iff]
        rw [DiagnosticMap.get?, FileMap.get?_eq_none_iff] at hq ⊢
        rwa [hc]
      refine if_pos (List.mem_map.mpr ⟨file, List.mem_filter.mpr ⟨hfile, ?_⟩, hc⟩)
      rw [hstale, Bool.not_false]
    · rw [show s.get? q = none from FileMap.get?_eq_none_iff.mpr hk, ite_self]

theorem contents_erase_all {s : Store} (hs : s.files.Sorted) {shown : List Path}
    (hshown : s.files.keys.map Path.components = shown.map Path.components) :
    (s.applyAll (shown.map .erase)).files.contents = [] := by
  refine FileMap.contents_eq (n := ∅) (sorted_applyAll hs _) FileMap.sorted_empty fun q => ?_
  refine (get?_applyAll_erase s shown q).trans ?_
  by_cases hk : q.components ∈ shown.map Path.components
  · exact if_pos hk
  · rw [if_neg hk]
    exact FileMap.get?_eq_none_iff.mpr (hshown ▸ hk)

end Store

end BuildWatch
