import BuildWatch.Proofs.Diagnostic
import Mathlib.Data.List.Induction

namespace BuildWatch

namespace FileMap

variable {α : Type} {es : List (Path × α)} {p : Path} {f : Option α → α}

theorem key_alterEntries (hs : Ascending es) {e : Path × α} (h : e ∈ alterEntries p f es) :
    (∃ d ∈ es, d.1 = e.1) ∨ e.1 = p ∧ valueAt es p = none := by
  induction es with
  | nil =>
    obtain rfl := List.mem_singleton.mp h
    exact .inr ⟨rfl, rfl⟩
  | cons d es ih =>
    obtain ⟨k, a⟩ := d
    rw [alterEntries] at h
    cases hc : compare p k <;> simp only [hc] at h
    · rcases List.mem_cons.mp h with rfl | h
      · exact .inr ⟨rfl, valueAt_eq_none_of_lt (lt_of_lt_head hc hs)⟩
      · exact .inl ⟨e, h, rfl⟩
    · rcases List.mem_cons.mp h with rfl | h
      · exact .inl ⟨(k, a), List.mem_cons_self, rfl⟩
      · exact .inl ⟨e, List.mem_cons_of_mem _ h, rfl⟩
    · rcases List.mem_cons.mp h with rfl | h
      · exact .inl ⟨(k, a), List.mem_cons_self, rfl⟩
      · have hk := Path.components_ne_of_lt (Std.OrientedCmp.gt_iff_lt.mp hc)
        rcases ih hs.of_cons h with ⟨d, hd, he⟩ | ⟨he, hn⟩
        · exact .inl ⟨d, List.mem_cons_of_mem _ hd, he⟩
        · exact .inr ⟨he, by rw [valueAt_cons, if_neg hk, hn]⟩

theorem alterEntries_of_lt (h : ∀ e ∈ es, compare e.1 p = .lt) :
    alterEntries p f es = es ++ [(p, f none)] := by
  induction es with
  | nil => rfl
  | cons e es ih =>
    obtain ⟨he, h⟩ := List.forall_mem_cons.mp h
    have hc : compare p e.1 = .gt := Std.OrientedCmp.gt_iff_lt.mpr he
    simp only [alterEntries, hc, ih h, List.cons_append]

theorem valueAt_of_mem (hs : Ascending es) {e : Path × α} (h : e ∈ es) :
    valueAt es e.1 = some e.2 := by
  induction es with
  | nil => cases h
  | cons d es ih =>
    obtain ⟨k, a⟩ := d
    rw [valueAt_cons]
    rcases List.mem_cons.mp h with rfl | h
    · rw [if_pos rfl]
    · have hk := Path.components_ne_of_lt (List.rel_of_pairwise_cons hs h)
      rw [if_neg hk, ih hs.of_cons h]

end FileMap

namespace Store

theorem toList_applyAll_set {s : Store} {es : List (Path × List Diagnostic)}
    (hs : FileMap.Ascending (s.toList ++ es)) (hfull : ∀ e ∈ es, e.2 ≠ []) :
    (s.applyAll (es.map fun e => .set e.1 e.2)).toList = s.toList ++ es := by
  induction es generalizing s with
  | nil => exact (List.append_nil _).symm
  | cons e es ih =>
    obtain ⟨he, hfull⟩ := List.forall_mem_cons.mp hfull
    obtain ⟨-, -, hbefore⟩ := List.pairwise_append.mp hs
    have hset : (s.apply (.set e.1 e.2)).toList = s.toList ++ [e] := by
      have hlast : FileMap.alterEntries e.1 (fun _ => e.2) s.toList = s.toList ++ [(e.1, e.2)] :=
        FileMap.alterEntries_of_lt fun d hd => hbefore d hd e List.mem_cons_self
      rw [← hlast]
      simp [apply, set, he, toList, FileMap.insert, FileMap.alter]
    have hrest := ih (s := s.apply (.set e.1 e.2))
      (by rw [hset, List.append_assoc]; exact hs) hfull
    rw [hset, List.append_assoc] at hrest
    exact hrest

end Store

namespace Record

/-- The records of a file, whichever way its path is spelled. -/
def ofFile (records : List Record) (file : Path) : List Record :=
  records.filter fun r => r.path.same file

/-- The path of a file as it was spelled first. -/
def spelling (records : List Record) (file : Path) : Path :=
  ((records.find? fun r => r.path.same file).map path).getD file

/-- The same records file by file, in path order. Those of one file stand as they came. -/
structure Listed (records shown : List Record) : Prop where
  ordered : shown.Pairwise fun a b => compare a.path b.path ≠ .gt
  complete : ∀ file, ofFile shown file = ofFile records file

variable {records shown : List Record} {p q : Path}

theorem same_comm (hpq : p.components = q.components) :
    (fun r : Record => r.path.same p) = fun r => r.path.same q := by
  funext r
  rw [Path.same, Path.same, hpq]

theorem ofFile_congr (hpq : p.components = q.components) : ofFile records p = ofFile records q := by
  rw [ofFile, ofFile, same_comm hpq]

theorem mem_ofFile {r : Record} :
    r ∈ ofFile records p ↔ r ∈ records ∧ r.path.components = p.components := by
  simp [ofFile, Path.same]

theorem Listed.perm (h : Listed records shown) : shown.Perm records := by
  rw [List.perm_iff_count]
  intro r
  have hcount : ∀ l : List Record, (ofFile l r.path).count r = l.count r := fun l =>
    List.count_filter (by simp [Path.same])
  rw [← hcount shown, ← hcount records, h.complete]

theorem Listed.filter (h : Listed records shown) (keep : Record → Bool) :
    Listed (records.filter keep) (shown.filter keep) := by
  refine ⟨h.ordered.filter keep, fun file => ?_⟩
  have hcomm : ∀ l : List Record, ofFile (l.filter keep) file = (ofFile l file).filter keep := by
    intro l
    simp only [ofFile, List.filter_filter, Bool.and_comm]
  rw [hcomm, hcomm, h.complete]

def gathered {α : Type} (records : List Record) (es : List (Path × α)) : List Record :=
  es.flatMap fun e => ofFile records e.1

section Gathered

variable {α : Type} {es : List (Path × α)}

theorem ordered_gathered (hs : FileMap.Ascending es) :
    (gathered records es).Pairwise fun a b => compare a.path b.path ≠ .gt := by
  rw [gathered, List.pairwise_flatMap]
  constructor
  · refine fun e _ => List.pairwise_of_forall_mem_list fun a ha b hb => ?_
    have he := (mem_ofFile.mp ha).2.trans (mem_ofFile.mp hb).2.symm
    rw [Path.compare_eq_iff.mpr he]
    nofun
  · refine hs.imp fun {d e} hlt a ha b hb => ?_
    have hcompare : compare a.path b.path = compare d.1 e.1 :=
      congrArg₂ (compare : List Component → List Component → Ordering) (mem_ofFile.mp ha).2
        (mem_ofFile.mp hb).2
    rw [hcompare, hlt]
    nofun

theorem ofFile_ofFile (records : List Record) (p q : Path) :
    ofFile (ofFile records p) q = if p.components = q.components then ofFile records q else [] := by
  by_cases h : p.components = q.components
  · rw [if_pos h, ofFile_congr h, ofFile, ofFile, List.filter_filter]
    simp
  · rw [if_neg h, ofFile, List.filter_eq_nil_iff]
    intro r hr
    simp [Path.same, (mem_ofFile.mp hr).2, h]

theorem ofFile_gathered (hs : FileMap.Ascending es) (file : Path) :
    ofFile (gathered records es) file =
      if file.components ∈ es.map (·.1.components) then ofFile records file else [] := by
  induction es with
  | nil => rfl
  | cons e es ih =>
    have hcons : gathered records (e :: es) = ofFile records e.1 ++ gathered records es := rfl
    have happ : ∀ a b, ofFile (a ++ b) file = ofFile a file ++ ofFile b file :=
      fun a b => List.filter_append ..
    rw [hcons, happ, ofFile_ofFile, ih hs.of_cons]
    by_cases he : e.1.components = file.components
    · have hrest : file.components ∉ es.map (·.1.components) := by
        intro hmem
        obtain ⟨d, hd, hd'⟩ := List.mem_map.mp hmem
        exact Path.components_ne_of_lt (List.rel_of_pairwise_cons hs hd) (he.trans hd'.symm)
      simp [he, hrest]
    · have hcons' : file.components ∈ (e :: es).map (·.1.components) ↔
          file.components ∈ es.map (·.1.components) := by
        simp [Ne.symm he]
      simp only [if_neg he, List.nil_append, hcons']

theorem listed_gathered (hs : FileMap.Ascending es)
    (hall : ∀ r ∈ records, r.path.components ∈ es.map (·.1.components)) :
    Listed records (gathered records es) := by
  refine ⟨ordered_gathered hs, fun file => ?_⟩
  rw [ofFile_gathered hs]
  split
  · rfl
  · next hno =>
    refine (List.filter_eq_nil_iff.mpr fun r hr hsame => hno ?_).symm
    rw [← of_decide_eq_true hsame]
    exact hall r hr

theorem gathered_filter {keep : Path → Bool}
    (hkeep : ∀ {p q : Path}, p.components = q.components → keep p = keep q) :
    gathered records (es.filter fun e => keep e.1) =
      (gathered records es).filter fun r => keep r.path := by
  induction es with
  | nil => rfl
  | cons e es ih =>
    have hfile : ∀ r ∈ ofFile records e.1, keep r.path = keep e.1 :=
      fun r hr => hkeep (mem_ofFile.mp hr).2
    have hcons : ∀ es, gathered records (e :: es) = ofFile records e.1 ++ gathered records es :=
      fun es => rfl
    rw [hcons, List.filter_append, ← ih]
    cases hk : keep e.1 with
    | true =>
      have hes : (e :: es).filter (fun e => keep e.1) = e :: es.filter fun e => keep e.1 :=
        List.filter_cons_of_pos hk
      rw [hes, hcons, List.filter_eq_self.mpr fun r hr => (hfile r hr).trans hk]
    | false =>
      have hes : (e :: es).filter (fun e => keep e.1) = es.filter fun e => keep e.1 :=
        List.filter_cons_of_neg (by simp [hk])
      have hnil : (ofFile records e.1).filter (fun r => keep r.path) = [] :=
        List.filter_eq_nil_iff.mpr fun r hr => by simp [hfile r hr, hk]
      rw [hes, hnil, List.nil_append]

end Gathered

end Record

namespace DiagnosticMap

open Record

variable {isPrimary : SourceTest} {records : List Record}

theorem ofRecords_append (isPrimary : SourceTest) (records : List Record) (r : Record) :
    ofRecords isPrimary (records ++ [r]) =
      (ofRecords isPrimary records).push r.path (r.diagnostic isPrimary) := List.foldl_append

theorem getD_get?_ofRecords (isPrimary : SourceTest) (records : List Record) (q : Path) :
    ((ofRecords isPrimary records).get? q).getD [] =
      (ofFile records q).map (diagnostic isPrimary) := by
  induction records using List.reverseRecOn with
  | nil => rfl
  | append_singleton records r ih =>
    have hs := (sound_ofRecords isPrimary records).sorted
    rw [ofRecords_append, push, get?, FileMap.get?_alter hs, ofFile, List.filter_append]
    by_cases hq : r.path.components = q.components
    · have hcongr : (ofRecords isPrimary records).files.get? r.path =
          (ofRecords isPrimary records).files.get? q := by
        simp only [FileMap.get?, FileMap.find?, Path.same, hq]
      rw [if_pos hq, hcongr, Option.getD_some, List.map_append]
      refine congrArg₂ (· ++ ·) ih ?_
      simp [Path.same, hq]
    · rw [if_neg hq]
      refine ih.trans ?_
      simp [ofFile, Path.same, hq]

theorem count_ofRecords (isPrimary : SourceTest) (records : List Record) :
    (ofRecords isPrimary records).count = records.length := by
  induction records using List.reverseRecOn with
  | nil => rfl
  | append_singleton records r ih =>
    rw [ofRecords_append, List.length_append, ← ih]
    exact FileMap.length_values_alterEntries r.path (r.diagnostic isPrimary) _

theorem key_ofRecords {e : Path × List Diagnostic}
    (h : e ∈ (ofRecords isPrimary records).files.entries) :
    ∃ r, records.find? (fun r => r.path.same e.1) = some r ∧ r.path = e.1 := by
  induction records using List.reverseRecOn generalizing e with
  | nil => cases h
  | append_singleton records r ih =>
    have hs := (sound_ofRecords isPrimary records).sorted
    rw [ofRecords_append] at h
    rw [List.find?_append]
    rcases FileMap.key_alterEntries hs h with ⟨d, hd, hde⟩ | ⟨he, hnone⟩
    · obtain ⟨r', hr', hp⟩ := ih hd
      rw [hde] at hr' hp
      exact ⟨r', by rw [hr']; rfl, hp⟩
    · have hno : records.find? (fun r => r.path.same e.1) = none := by
        have hget := getD_get?_ofRecords isPrimary records r.path
        rw [show (ofRecords isPrimary records).get? r.path = none from hnone] at hget
        have hnil := List.map_eq_nil_iff.mp hget.symm
        rw [List.find?_eq_none, he]
        exact List.filter_eq_nil_iff.mp hnil
      have hlast : [r].find? (fun r => r.path.same e.1) = some r :=
        List.find?_cons_of_pos (by simp [Path.same, he])
      exact ⟨r, by rw [hno, hlast]; rfl, he.symm⟩

theorem spelling_of_same {e : Path × List Diagnostic}
    (h : e ∈ (ofRecords isPrimary records).files.entries) {q : Path}
    (hq : q.components = e.1.components) : spelling records q = e.1 := by
  obtain ⟨r, hr, hp⟩ := key_ofRecords h
  rw [spelling, same_comm hq, hr]
  exact hp

theorem value_ofRecords {e : Path × List Diagnostic}
    (h : e ∈ (ofRecords isPrimary records).files.entries) :
    e.2 = (ofFile records e.1).map (diagnostic isPrimary) := by
  rw [← getD_get?_ofRecords]
  have hvalue := FileMap.valueAt_of_mem (sound_ofRecords isPrimary records).sorted h
  change _ = (FileMap.valueAt (ofRecords isPrimary records).files.entries e.1).getD []
  rw [hvalue, Option.getD_some]

theorem mem_keys_ofRecords {r : Record} (h : r ∈ records) :
    r.path.components ∈ (ofRecords isPrimary records).files.entries.map (·.1.components) := by
  by_contra hno
  have hnone : (ofRecords isPrimary records).get? r.path = none := by
    rw [get?, FileMap.get?_eq_none_iff, FileMap.keys, List.map_map]
    exact hno
  have hget := getD_get?_ofRecords isPrimary records r.path
  rw [hnone] at hget
  have hnil := List.map_eq_nil_iff.mp hget.symm
  exact List.not_mem_nil (hnil ▸ mem_ofFile.mpr ⟨h, rfl⟩)

end DiagnosticMap

end BuildWatch
