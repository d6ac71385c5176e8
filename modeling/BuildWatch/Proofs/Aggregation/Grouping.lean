import BuildWatch.Proofs.Aggregation

namespace BuildWatch.DiagnosticMap

open Record

variable {isPrimary : SourceTest} {records shown : List Record} {file : Path}

theorem spelling_eq (records : List Record) (file : Path) :
    spelling records file = ((ofFile records file).head?.map path).getD file := by
  rw [spelling, ofFile, List.head?_filter]

theorem mem_ofRecords_iff {e : Path × List Diagnostic} :
    e ∈ (ofRecords isPrimary records).files.entries ↔
      ofFile records e.1 ≠ [] ∧ spelling records e.1 = e.1 ∧
        e.2 = (ofFile records e.1).map (diagnostic isPrimary) := by
  constructor
  · intro he
    refine ⟨fun hnil => ?_, spelling_of_same he rfl, value_ofRecords he⟩
    have hvalue := value_ofRecords he
    rw [hnil] at hvalue
    exact (sound_ofRecords isPrimary records).full e he hvalue
  · intro ⟨hne, hspelling, hvalue⟩
    obtain ⟨r, hr⟩ := List.exists_mem_of_ne_nil _ hne
    obtain ⟨hr, hsame⟩ := mem_ofFile.mp hr
    have hkeys : r.path.components ∈
        (ofRecords isPrimary records).files.entries.map (·.1.components) := mem_keys_ofRecords hr
    obtain ⟨d, hd, hpath⟩ := List.mem_map.mp hkeys
    have hkey : d.1 = e.1 := by
      rw [← hspelling]
      exact (spelling_of_same hd (hpath.trans hsame).symm).symm
    have hentry : d = e := by
      apply Prod.ext hkey
      rw [hvalue, ← hkey]
      exact value_ofRecords hd
    rw [← hentry]
    exact hd

theorem get?_ofRecords (isPrimary : SourceTest) (records : List Record) (file : Path) :
    (ofRecords isPrimary records).get? file =
      if ofFile records file = [] then none
      else some ((ofFile records file).map (diagnostic isPrimary)) := by
  have hgetD := getD_get?_ofRecords isPrimary records file
  cases hget : (ofRecords isPrimary records).get? file with
  | none =>
    rw [hget] at hgetD
    rw [if_pos (List.map_eq_nil_iff.mp hgetD.symm)]
  | some ds =>
    obtain ⟨e, he, rfl⟩ := Option.map_eq_some_iff.mp hget
    have hfull := (sound_ofRecords isPrimary records).full e (List.mem_of_find?_eq_some he)
    rw [hget, Option.getD_some] at hgetD
    rw [hgetD] at hfull ⊢
    rw [if_neg fun hnil => hfull (by rw [hnil]; rfl)]

theorem ofRecords_congr (h : ∀ file, ofFile shown file = ofFile records file) :
    ofRecords isPrimary shown = ofRecords isPrimary records := by
  have hsorted : ∀ l, FileMap.Ascending (ofRecords isPrimary l).files.entries :=
    fun l => (sound_ofRecords isPrimary l).sorted
  have hnodup : ∀ l, (ofRecords isPrimary l).files.entries.Nodup := by
    intro l
    refine (hsorted l).imp fun hlt heq => ?_
    rw [heq] at hlt
    exact Path.components_ne_of_lt hlt rfl
  have hperm : (ofRecords isPrimary shown).files.entries.Perm
      (ofRecords isPrimary records).files.entries := by
    refine (List.perm_ext_iff_of_nodup (hnodup shown) (hnodup records)).mpr fun e => ?_
    rw [mem_ofRecords_iff, mem_ofRecords_iff, spelling_eq, spelling_eq, h]
  have hentries : (ofRecords isPrimary shown).files.entries =
      (ofRecords isPrimary records).files.entries := by
    refine hperm.eq_of_pairwise (fun a b _ _ hab hba => ?_) (hsorted shown) (hsorted records)
    exact absurd rfl (Path.components_ne_of_lt (Std.TransCmp.lt_trans hab hba))
  exact congrArg (fun es => DiagnosticMap.mk ⟨es⟩) hentries

/-- The diagnostics of some records by file. Files stand in path order, each once and spelled as it
was first; its diagnostics are those of its records, as they came, and none is lost. To mix the
records of different files in another way changes nothing. -/
theorem ofRecords_groups (isPrimary : SourceTest) (records : List Record) :
    let set := ofRecords isPrimary records
    set.paths.Pairwise (fun a b => compare a b = .lt) ∧
    (∀ file, set.get? file =
      if ofFile records file = [] then none
      else some ((ofFile records file).map (diagnostic isPrimary))) ∧
    set.count = records.length ∧
    (∀ file ∈ set.paths, (records.find? fun r => r.path.same file).map path = some file) ∧
    ∀ shown, (∀ file, ofFile shown file = ofFile records file) →
      ofRecords isPrimary shown = set := by
  intro set
  refine ⟨?_, get?_ofRecords isPrimary records, count_ofRecords isPrimary records, ?_, ?_⟩
  · exact List.pairwise_map.mpr (sound_ofRecords isPrimary records).sorted
  · intro file hfile
    obtain ⟨e, he, rfl⟩ := List.mem_map.mp hfile
    obtain ⟨r, hr, hpath⟩ := key_ofRecords he
    rw [hr, Option.map_some, hpath]
  · exact fun shown h => ofRecords_congr h

theorem ofRecords_groups_of_mixed :
    let b : Record := ⟨"b/B", 1, 0, "b1", []⟩
    let b' : Record := ⟨"b//./B/", 2, 0, "b2", []⟩
    let a : Record := ⟨"a", 3, 0, "a1", []⟩
    let set := ofRecords (fun _ => true) [b, a, b']
    set.paths.map (·.text) = ["a", "b/B"] ∧ set.get? ⟨"./b/B"⟩ = none ∧
      (set.get? ⟨"b/./B"⟩).map (·.map (·.message)) = some ["b1", "b2"] ∧
      ofRecords (fun _ => true) [a, b, b'] = set := by
  intro b b' a set
  obtain ⟨-, hget, -, -, hmixed⟩ := ofRecords_groups (fun _ => true) [b, a, b']
  have hne : a.path.components ≠ b.path.components := by decide
  refine ⟨by decide +kernel, ?_, ?_, hmixed _ fun file => ?_⟩
  · rw [hget]
    exact if_pos (by decide +kernel)
  · rw [hget, if_neg (by decide +kernel)]
    decide +kernel
  · by_cases hb : b.path.components = file.components
    · have ha : a.path.components ≠ file.components := hb ▸ hne
      simp [ofFile, Path.same, hb, ha]
    · simp [ofFile, Path.same, hb, List.filter_cons]

end BuildWatch.DiagnosticMap
