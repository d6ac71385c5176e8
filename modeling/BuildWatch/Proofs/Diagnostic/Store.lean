import BuildWatch.Proofs.Effect
import Mathlib.Data.List.Dedup
import Mathlib.Data.List.Induction

namespace BuildWatch

namespace FileMap

variable {α : Type} {p q : Path}

theorem find?_eq_none_of_lt {es : List (Path × α)} (h : ∀ e ∈ es, compare p e.1 = .lt) :
    (es.find? fun e => e.1.same p) = none :=
  Option.map_eq_none_iff.mp (valueAt_eq_none_of_lt h)

theorem find?_alter_self {m : FileMap α} (hm : m.Sorted) (h : p.components = q.components)
    (f : Option α → α) :
    (m.alter p f).find? q = some (((m.find? q).map (·.1)).getD p, f (m.get? q)) := by
  have hsame : ∀ k : Path, k.same q = k.same p := fun k => by rw [Path.same, Path.same, h]
  have hp : p.same p = true := decide_eq_true rfl
  simp only [get?, find?, hsame]
  obtain ⟨es⟩ := m
  change Ascending es at hm
  change (alterEntries p f es).find? _ = _
  induction es with
  | nil => exact List.find?_cons_of_pos hp
  | cons e es ih =>
    obtain ⟨k, a⟩ := e
    cases hc : compare p k with
    | lt =>
      rw [find?_eq_none_of_lt (lt_of_lt_head hc hm)]
      simp only [alterEntries, hc]
      exact List.find?_cons_of_pos hp
    | eq =>
      have hk : k.same p = true := decide_eq_true (Path.compare_eq_iff.mp hc).symm
      simp only [alterEntries, hc, List.find?_cons, hk, Option.map_some, Option.getD_some]
    | gt =>
      have hk : k.same p = false :=
        decide_eq_false (Path.components_ne_of_lt (Std.OrientedCmp.gt_iff_lt.mp hc))
      simp only [alterEntries, hc, List.find?_cons, hk]
      exact ih hm.of_cons

theorem find?_of_mem {m : FileMap α} (hm : m.Sorted) {e : Path × α} (h : e ∈ m.entries) :
    m.find? e.1 = some e := by
  obtain ⟨es⟩ := m
  change Ascending es at hm
  change es.find? _ = _
  induction es with
  | nil => cases h
  | cons d es ih =>
    rcases List.mem_cons.mp h with rfl | h
    · exact List.find?_cons_of_pos (decide_eq_true rfl)
    · have hd := Path.components_ne_of_lt (List.rel_of_pairwise_cons hm h)
      rw [List.find?_cons_of_neg (by simpa [Path.same] using hd)]
      exact ih h hm.of_cons

theorem mem_of_find? {m : FileMap α} {e : Path × α} (h : m.find? q = some e) :
    e ∈ m.entries ∧ e.1.components = q.components :=
  ⟨List.mem_of_find?_eq_some h, by simpa [Path.same] using List.find?_some h⟩

end FileMap

namespace Edit

def concerns (place : List Component) (e : Edit) : Bool :=
  match e.file? with
  | some file => file.components = place
  | none => true

/-- What an edit puts on show. To set a file to nothing puts nothing on show. -/
def shows? : Edit → Option (List Diagnostic)
  | .set _ diagnostics => if diagnostics = [] then none else some diagnostics
  | _ => none

/-- What is on show at a place after some edits: what the last edit about it says. -/
def shown? (edits : List Edit) (place : List Component) : Option (List Diagnostic) :=
  (edits.reverse.find? (concerns place)).bind shows?

/-- A file came on show under this spelling, and it has been on show from then on. -/
def Entered (edits : List Edit) (file : Path) : Prop :=
  ∃ before diagnostics after, edits = before ++ .set file diagnostics :: after ∧
    shown? before file.components = none ∧
    ∀ later, later <+: after →
      shown? (before ++ .set file diagnostics :: later) file.components ≠ none

def places (edits : List Edit) : List (List Component) :=
  ((edits.filterMap file?).map Path.components).dedup.filter fun place =>
    (shown? edits place).isSome

variable {edits : List Edit} {place : List Component} {file : Path}

theorem eq_set_of_shows? {e : Edit} {ds : List Diagnostic} (h : e.shows? = some ds) :
    ∃ file, e = .set file ds := by
  cases e with
  | set file new =>
    rw [shows?] at h
    split at h
    · cases h
    · exact ⟨file, congrArg _ (Option.some.inj h)⟩
  | erase file => cases h
  | clear => cases h

theorem ne_nil_of_shown? {ds : List Diagnostic} (h : shown? edits place = some ds) : ds ≠ [] := by
  obtain ⟨e, -, hshows⟩ := Option.bind_eq_some_iff.mp h
  obtain ⟨file, rfl⟩ := eq_set_of_shows? hshows
  rintro rfl
  cases hshows

theorem exists_file (h : shown? edits place ≠ none) :
    ∃ file ∈ edits.filterMap file?, file.components = place := by
  obtain ⟨ds, hds⟩ := Option.ne_none_iff_exists'.mp h
  obtain ⟨e, he, hshows⟩ := Option.bind_eq_some_iff.mp hds
  obtain ⟨file, rfl⟩ := eq_set_of_shows? hshows
  have hmem : .set file ds ∈ edits := List.mem_reverse.mp (List.mem_of_find?_eq_some he)
  have hplace : concerns place (.set file ds) = true := List.find?_some he
  exact ⟨file, List.mem_filterMap.mpr ⟨_, hmem, rfl⟩, of_decide_eq_true hplace⟩

theorem mem_places_iff : place ∈ places edits ↔ shown? edits place ≠ none := by
  rw [places, List.mem_filter, List.mem_dedup, Option.isSome_iff_ne_none, and_iff_right_iff_imp]
  exact fun h => List.mem_map.mpr (exists_file h)

theorem nodup_places (edits : List Edit) : (places edits).Nodup := (List.nodup_dedup _).filter _

theorem shown?_append (edits : List Edit) (e : Edit) (place : List Component) :
    shown? (edits ++ [e]) place = if e.concerns place then e.shows? else shown? edits place := by
  rw [shown?, List.reverse_append, List.reverse_singleton, List.singleton_append, List.find?_cons]
  cases e.concerns place <;> rfl

theorem Entered.shown (h : Entered edits file) : shown? edits file.components ≠ none := by
  obtain ⟨before, ds, after, rfl, -, hshown⟩ := h
  exact hshown after (List.prefix_refl after)

theorem entered_append {e : Edit} :
    Entered (edits ++ [e]) file ↔ shown? (edits ++ [e]) file.components ≠ none ∧
      (Entered edits file ∨
        shown? edits file.components = none ∧ ∃ diagnostics, e = .set file diagnostics) := by
  constructor
  · intro h
    refine ⟨h.shown, ?_⟩
    obtain ⟨before, ds, after, hedits, hnone, hshown⟩ := h
    rcases after.eq_nil_or_concat' with rfl | ⟨after, last, rfl⟩
    · obtain ⟨rfl, he⟩ := List.append_inj' hedits rfl
      exact .inr ⟨hnone, ds, List.singleton_inj.mp he⟩
    · rw [← List.cons_append, ← List.append_assoc] at hedits
      obtain ⟨rfl, -⟩ := List.append_inj' hedits rfl
      exact .inl ⟨before, ds, after, rfl, hnone, fun later hlater =>
        hshown later (hlater.trans (List.prefix_append after [last]))⟩
  · rintro ⟨hnow, ⟨before, ds, after, rfl, hnone, hshown⟩ | ⟨hnone, ds, rfl⟩⟩
    · refine ⟨before, ds, after ++ [e], by simp, hnone, fun later hlater => ?_⟩
      rcases List.prefix_concat_iff.mp hlater with rfl | hlater
      · rwa [List.append_assoc] at hnow
      · exact hshown later hlater
    · refine ⟨edits, ds, [], rfl, hnone, fun later hlater => ?_⟩
      rwa [List.prefix_nil.mp hlater]

end Edit

namespace Store

open Edit

/-- One edit: what it is not about stays, and what it is about is replaced but keeps its key. -/
theorem find?_apply {s : Store} (hs : s.files.Sorted) (e : Edit) (q : Path) :
    (s.apply e).files.find? q =
      if e.concerns q.components then
        e.shows?.bind fun ds => e.file?.map fun file =>
          (((s.files.find? q).map (·.1)).getD file, ds)
      else s.files.find? q := by
  have herase : ∀ file : Path, (s.files.erase file).find? q =
      if file.components = q.components then none else s.files.find? q :=
    fun file => FileMap.find?_erase_eq s.files file q
  cases e with
  | set file ds =>
    simp only [concerns, file?, decide_eq_true_eq]
    cases ds with
    | nil => exact herase file
    | cons d ds =>
      change (s.files.alter file _).find? q = _
      split
      · next hq => exact FileMap.find?_alter_self hs hq _
      · next hq => exact FileMap.find?_alter hq s.files _
  | erase file =>
    simp only [concerns, file?, decide_eq_true_eq]
    exact herase file
  | clear => rfl

variable (edits : List Edit)

theorem sorted_files : (empty.applyAll edits).files.Sorted :=
  sorted_applyAll FileMap.sorted_empty edits

theorem find?_append (e : Edit) (q : Path) :
    (empty.applyAll (edits ++ [e])).files.find? q =
      if e.concerns q.components then
        e.shows?.bind fun ds => e.file?.map fun file =>
          ((((empty.applyAll edits).files.find? q).map (·.1)).getD file, ds)
      else (empty.applyAll edits).files.find? q := by
  rw [applyAll_append]
  exact find?_apply (sorted_files edits) e q

theorem get?_eq_shown? (q : Path) :
    (empty.applyAll edits).get? q = shown? edits q.components := by
  change ((empty.applyAll edits).files.find? q).map (·.2) = _
  induction edits using List.reverseRecOn with
  | nil => rfl
  | append_singleton edits e ih =>
    rw [find?_append, shown?_append, ← ih]
    split
    · next hq =>
      cases e with
      | set file ds => cases ds <;> rfl
      | erase file => rfl
      | clear => rfl
    · rfl

theorem key_eq_iff {key : Path} (file : Path)
    (h : ∀ ds, (empty.applyAll edits).files.find? key = some (key, ds) ↔
      Entered edits key ∧ shown? edits key.components = some ds) :
    (((empty.applyAll edits).files.find? key).map (·.1)).getD file = key ↔
      Entered edits key ∨ shown? edits key.components = none ∧ file = key := by
  have hget := get?_eq_shown? edits key
  change ((empty.applyAll edits).files.find? key).map (·.2) = _ at hget
  cases hfind : (empty.applyAll edits).files.find? key with
  | none =>
    have hnone : shown? edits key.components = none := by rw [← hget, hfind]; rfl
    have hout : ¬Entered edits key := fun hentered => hentered.shown hnone
    simp [hnone, hout]
  | some entry =>
    obtain ⟨k, old⟩ := entry
    have hold : shown? edits key.components = some old := by rw [← hget, hfind]; rfl
    have hkey := h old
    rw [hfind] at hkey
    simpa [hold] using hkey

theorem find?_self_iff {key : Path} {ds : List Diagnostic} :
    (empty.applyAll edits).files.find? key = some (key, ds) ↔
      Entered edits key ∧ shown? edits key.components = some ds := by
  induction edits using List.reverseRecOn generalizing ds with
  | nil => exact ⟨nofun, fun h => absurd h.2 nofun⟩
  | append_singleton edits e ih =>
    rw [find?_append, entered_append, shown?_append]
    split
    · cases hshows : e.shows? with
      | none => exact ⟨nofun, fun h => absurd rfl h.1.1⟩
      | some new =>
        obtain ⟨file, rfl⟩ := eq_set_of_shows? hshows
        have hkey := key_eq_iff edits file fun _ => ih
        simp [file?, hkey]
    · rw [ih]
      constructor
      · exact fun h => ⟨⟨h.1.shown, .inl h.1⟩, h.2⟩
      · rintro ⟨⟨hne, h | ⟨hnone, -⟩⟩, hds⟩
        · exact ⟨h, hds⟩
        · exact absurd hnone hne

theorem mem_toList_iff {file : Path} {ds : List Diagnostic} :
    (file, ds) ∈ (empty.applyAll edits).toList ↔
      Entered edits file ∧ shown? edits file.components = some ds := by
  rw [← find?_self_iff]
  exact ⟨FileMap.find?_of_mem (sorted_files edits), fun h => (FileMap.mem_of_find? h).1⟩

theorem places_toList :
    ((empty.applyAll edits).toList.map (·.1.components)).Perm (places edits) := by
  have hnodup : ((empty.applyAll edits).toList.map (·.1.components)).Nodup := by
    rw [List.Nodup, List.pairwise_map]
    exact (sorted_files edits).imp Path.components_ne_of_lt
  refine (List.perm_ext_iff_of_nodup hnodup (nodup_places edits)).mpr fun place => ?_
  rw [mem_places_iff]
  constructor
  · intro h
    obtain ⟨e, he, rfl⟩ := List.mem_map.mp h
    exact ((mem_toList_iff edits).mp he).1.shown
  · intro h
    obtain ⟨file, -, rfl⟩ := exists_file h
    obtain ⟨ds, hds⟩ := Option.ne_none_iff_exists'.mp h
    rw [← get?_eq_shown?] at hds
    obtain ⟨e, he, -⟩ := Option.map_eq_some_iff.mp hds
    exact List.mem_map.mpr ⟨e, FileMap.mem_of_find? he⟩

theorem count_eq : (empty.applyAll edits).count =
    ((places edits).flatMap fun place => (shown? edits place).getD []).length := by
  have hshown : (empty.applyAll edits).toList.flatMap (·.2) =
      ((empty.applyAll edits).toList.map (·.1.components)).flatMap fun place =>
        (shown? edits place).getD [] := by
    rw [List.flatMap_map]
    refine List.flatMap_congr fun e he => ?_
    rw [((mem_toList_iff edits).mp he).2, Option.getD_some]
  rw [count, hshown]
  exact ((places_toList edits).flatMap_right _).length_eq

theorem status_eq :
    (empty.applyAll edits).status =
      if places edits = [] then ""
      else "E:" ++ toString (empty.applyAll edits).count ++ " in " ++
        if (places edits).length = 1 then "1 file"
        else toString (places edits).length ++ " files" := by
  have hlength := (places_toList edits).length_eq
  rw [List.length_map] at hlength
  rw [status, hlength]
  match places edits with
  | [] => rfl
  | [_] => simp [String.append_assoc]
  | _ :: _ :: _ => simp [String.append_assoc]

/-- What a store holds after any edits. A file has what the last edit about it sets it to, whatever
the spelling, and a file that is set to nothing is not there. The files stand in path order, each
once, and spelled as when it came on show. All of them and all that they have are counted. -/
theorem holds_of_edits (edits : List Edit) :
    let s := empty.applyAll edits
    (∀ file, s.get? file = shown? edits file.components) ∧
    s.toList.Pairwise (fun a b => compare a.1 b.1 = .lt) ∧
    (∀ file ds, (file, ds) ∈ s.toList ↔
      Entered edits file ∧ shown? edits file.components = some ds) ∧
    (∀ e ∈ s.toList, e.2 ≠ []) ∧
    (s.toList.map (·.1.components)).Perm (places edits) ∧
    s.count = ((places edits).flatMap fun place => (shown? edits place).getD []).length ∧
    s.status = if places edits = [] then "" else "E:" ++ toString s.count ++ " in " ++
      if (places edits).length = 1 then "1 file"
      else toString (places edits).length ++ " files" := by
  intro s
  refine ⟨get?_eq_shown? edits, sorted_files edits, fun file ds => mem_toList_iff edits, ?_,
    places_toList edits, count_eq edits, status_eq edits⟩
  exact fun e he => ne_nil_of_shown? ((mem_toList_iff edits).mp he).2

theorem holds_of_edits_respelled :
    let d (message : String) : Diagnostic := ⟨message, .point ⟨0, 0⟩⟩
    let edits : List Edit := [.set ⟨"/p/b"⟩ [d "b1"], .set ⟨"/p/a"⟩ [d "a1"],
      .set ⟨"/p/./b/"⟩ [d "b2", d "b3"], .set ⟨"/p/c"⟩ [d "c1"], .erase ⟨"/p//c"⟩,
      .set ⟨"/p/a/."⟩ [], .set ⟨"/p//a"⟩ [d "a2"]]
    let s := empty.applyAll edits
    let e : Path × List Diagnostic := (⟨"/p/b"⟩, [d "b2", d "b3"])
    e ∈ s.toList ∧ e.2 ≠ [] ∧ Entered edits e.1 ∧ s.get? ⟨"/p/c"⟩ = none ∧
      s.get? ⟨"/p/a"⟩ = some [d "a2"] ∧ s.status = "E:3 in 2 files" := by
  intro d edits s e
  obtain ⟨hget, -, hmem, hfull, -, -, hstatus⟩ := holds_of_edits edits
  have he : e ∈ s.toList := by
    have htext : ("/p/b", e.2) ∈ s.toList.map fun e => (e.1.text, e.2) := by decide +kernel
    obtain ⟨⟨⟨text⟩, ds⟩, he, h⟩ := List.mem_map.mp htext
    obtain ⟨rfl, rfl⟩ := Prod.mk.inj h
    exact he
  refine ⟨he, hfull e he, ((hmem _ _).mp he).1, ?_, ?_, ?_⟩
  · rw [hget]
    decide +kernel
  · rw [hget]
    decide +kernel
  · rw [hstatus]
    decide +kernel

end Store

end BuildWatch
