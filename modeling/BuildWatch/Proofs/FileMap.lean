import BuildWatch.FileMap

namespace BuildWatch

namespace Path

theorem compare_eq_iff {p q : Path} : compare p q = .eq ↔ p.components = q.components :=
  Std.compare_eq_iff_eq (a := p.components) (b := q.components)

theorem components_ne_of_lt {p q : Path} (h : compare p q = .lt) : p.components ≠ q.components := by
  intro he
  rw [compare_eq_iff.mpr he] at h
  cases h

theorem nodup_of_ascending {files : List Path}
    (h : files.Pairwise fun a b => compare a b = .lt) : (files.map components).Nodup := by
  rw [List.Nodup, List.pairwise_map]
  exact h.imp components_ne_of_lt

end Path

namespace FileMap

variable {α : Type}

abbrev Ascending (es : List (Path × α)) : Prop := es.Pairwise fun a b => compare a.1 b.1 = .lt

def Sorted (m : FileMap α) : Prop := Ascending m.entries

/-- The entries by what their paths denote, so that the spelling of a path does not count. -/
def contents (m : FileMap α) : List (List Component × α) :=
  m.entries.map fun e => (e.1.components, e.2)

def valueAt (es : List (Path × α)) (q : Path) : Option α := (es.find? fun e => e.1.same q).map (·.2)

theorem valueAt_cons (p : Path) (a : α) (es : List (Path × α)) (q : Path) :
    valueAt ((p, a) :: es) q = if p.components = q.components then some a else valueAt es q := by
  by_cases h : p.components = q.components
  · simp [valueAt, Path.same, h]
  · simp [valueAt, Path.same, h]

theorem valueAt_eq_none_iff {es : List (Path × α)} {q : Path} :
    valueAt es q = none ↔ ∀ e ∈ es, e.1.components ≠ q.components := by
  simp [valueAt, Path.same]

theorem valueAt_eq_none_of_lt {es : List (Path × α)} {q : Path}
    (h : ∀ e ∈ es, compare q e.1 = .lt) : valueAt es q = none :=
  valueAt_eq_none_iff.mpr fun e he => (Path.components_ne_of_lt (h e he)).symm

theorem lt_of_lt_head {p k : Path} {a : α} {es : List (Path × α)} (h : compare p k = .lt)
    (hs : Ascending ((k, a) :: es)) :
    ∀ e ∈ (k, a) :: es, compare p e.1 = .lt := by
  intro e he
  rcases List.mem_cons.mp he with rfl | he
  · exact h
  · exact Std.TransCmp.lt_trans h (List.rel_of_pairwise_cons hs he)

theorem valueAt_alterEntries (p : Path) (f : Option α → α) (es : List (Path × α))
    (hs : Ascending es) (q : Path) :
    valueAt (alterEntries p f es) q =
      if p.components = q.components then some (f (valueAt es p)) else valueAt es q := by
  induction es with
  | nil => exact valueAt_cons p (f none) [] q
  | cons e es ih =>
    obtain ⟨k, a⟩ := e
    cases hc : compare p k with
    | lt =>
      have hn := valueAt_eq_none_of_lt (lt_of_lt_head hc hs)
      simp only [alterEntries, hc]
      rw [valueAt_cons, hn]
    | eq =>
      have hk := Path.compare_eq_iff.mp hc
      simp only [alterEntries, hc, valueAt_cons, hk, if_true]
      by_cases hq : k.components = q.components <;> simp [hq]
    | gt =>
      have hk := Path.components_ne_of_lt (Std.OrientedCmp.gt_iff_lt.mp hc)
      simp only [alterEntries, hc, valueAt_cons, ih hs.of_cons, hk, if_false]
      by_cases hq : p.components = q.components
      · have hkq : k.components ≠ q.components := hq ▸ hk
        simp [hq, hkq]
      · simp [hq]

theorem mem_alterEntries {p : Path} {f : Option α → α} {es : List (Path × α)} {e : Path × α}
    (h : e ∈ alterEntries p f es) :
    e ∈ es ∨ (e.1 = p ∨ ∃ d ∈ es, d.1 = e.1) ∧ ∃ o, e.2 = f o := by
  induction es with
  | nil =>
    obtain rfl := List.mem_singleton.mp h
    exact .inr ⟨.inl rfl, none, rfl⟩
  | cons d es ih =>
    obtain ⟨k, a⟩ := d
    rw [alterEntries] at h
    cases hc : compare p k <;> simp only [hc] at h
    · rcases List.mem_cons.mp h with rfl | h
      · exact .inr ⟨.inl rfl, none, rfl⟩
      · exact .inl h
    · rcases List.mem_cons.mp h with rfl | h
      · exact .inr ⟨.inr ⟨(k, a), List.mem_cons_self, rfl⟩, some a, rfl⟩
      · exact .inl (List.mem_cons_of_mem _ h)
    · rcases List.mem_cons.mp h with rfl | h
      · exact .inl List.mem_cons_self
      · rcases ih h with h | ⟨h, hv⟩
        · exact .inl (List.mem_cons_of_mem _ h)
        · exact .inr ⟨h.imp_right fun ⟨d, hd, he⟩ => ⟨d, List.mem_cons_of_mem _ hd, he⟩, hv⟩

theorem pairwise_alterEntries (p : Path) (f : Option α → α) (es : List (Path × α))
    (hs : Ascending es) : Ascending (alterEntries p f es) := by
  induction es with
  | nil => simp [alterEntries]
  | cons d es ih =>
    obtain ⟨k, a⟩ := d
    cases hc : compare p k <;> simp only [alterEntries, hc]
    · exact List.pairwise_cons.mpr ⟨lt_of_lt_head hc hs, hs⟩
    · exact List.pairwise_cons.mpr ⟨(List.pairwise_cons.mp hs).1, hs.of_cons⟩
    · refine List.pairwise_cons.mpr ⟨fun e he => ?_, ih hs.of_cons⟩
      rcases mem_alterEntries he with hm | ⟨h | ⟨d, hd, h⟩, -⟩
      · exact List.rel_of_pairwise_cons hs hm
      · rw [h]
        exact Std.OrientedCmp.gt_iff_lt.mp hc
      · rw [← h]
        exact List.rel_of_pairwise_cons hs hd

theorem alterEntries_of_gt {p : Path} (f : Option α → α) {es : List (Path × α)}
    (h : ∀ e ∈ es, compare p e.1 = .lt) : alterEntries p f es = (p, f none) :: es := by
  cases es with
  | nil => rfl
  | cons e es => simp only [alterEntries, h e List.mem_cons_self]

theorem filter_alterEntries {keep : Path → Bool}
    (hkeep : ∀ {p q : Path}, p.components = q.components → keep p = keep q) (p : Path)
    (f : Option α → α) {es : List (Path × α)} (hs : Ascending es) :
    (alterEntries p f es).filter (fun e => keep e.1) =
      if keep p then alterEntries p f (es.filter fun e => keep e.1)
      else es.filter fun e => keep e.1 := by
  induction es with
  | nil => cases hp : keep p <;> simp [alterEntries, hp]
  | cons e es ih =>
    obtain ⟨k, a⟩ := e
    cases hc : compare p k with
    | lt =>
      have hbefore := lt_of_lt_head hc hs
      have hkept : ∀ e ∈ ((k, a) :: es).filter fun e => keep e.1, compare p e.1 = .lt :=
        fun e he => hbefore e (List.mem_filter.mp he).1
      rw [alterEntries_of_gt f hbefore, alterEntries_of_gt f hkept, List.filter_cons]
    | eq =>
      have hk := hkeep (Path.compare_eq_iff.mp hc)
      simp only [alterEntries, hc, List.filter_cons, ← hk]
      cases keep p <;> simp [alterEntries, hc]
    | gt =>
      simp only [alterEntries, hc, List.filter_cons, ih hs.of_cons]
      cases keep p <;> cases keep k <;> simp [alterEntries, hc]

theorem length_values_alterEntries (p : Path) (a : α) (es : List (Path × List α)) :
    ((alterEntries p (fun old => old.getD [] ++ [a]) es).map (·.2)).flatten.length =
      (es.map (·.2)).flatten.length + 1 := by
  induction es with
  | nil => rfl
  | cons e es ih =>
    obtain ⟨k, old⟩ := e
    rw [alterEntries]
    cases compare p k with
    | lt => simp [Nat.add_comm]
    | eq => simp only [List.map_cons, List.flatten_cons, List.length_append, Option.getD_some,
        List.length_singleton, Nat.add_right_comm]
    | gt => simp only [List.map_cons, List.flatten_cons, List.length_append, ih, Nat.add_assoc]

theorem sorted_empty : (∅ : FileMap α).Sorted := List.Pairwise.nil

theorem sorted_alter {m : FileMap α} (hm : m.Sorted) (p : Path) (f : Option α → α) :
    (m.alter p f).Sorted := pairwise_alterEntries p f m.entries hm

theorem sorted_insert {m : FileMap α} (hm : m.Sorted) (p : Path) (a : α) : (m.insert p a).Sorted :=
  sorted_alter hm p _

theorem sorted_erase {m : FileMap α} (hm : m.Sorted) (p : Path) : (m.erase p).Sorted :=
  List.Pairwise.filter _ hm

theorem sorted_filter {m : FileMap α} (hm : m.Sorted) (keep : Path → Bool) :
    (m.filter keep).Sorted := List.Pairwise.filter _ hm

theorem get?_alter {m : FileMap α} (hm : m.Sorted) (p : Path) (f : Option α → α) (q : Path) :
    (m.alter p f).get? q = if p.components = q.components then some (f (m.get? p)) else m.get? q :=
  valueAt_alterEntries p f m.entries hm q

theorem get?_insert {m : FileMap α} (hm : m.Sorted) (p : Path) (a : α) (q : Path) :
    (m.insert p a).get? q = if p.components = q.components then some a else m.get? q :=
  get?_alter hm p _ q

theorem find?_filter {keep : Path → Bool}
    (hkeep : ∀ {p q : Path}, p.components = q.components → keep p = keep q) (m : FileMap α)
    (q : Path) : (m.filter keep).find? q = if keep q then m.find? q else none := by
  rw [find?, filter, List.find?_filter, find?]
  have hsame : ∀ e : Path × α, (keep e.1 && e.1.same q) = (keep q && e.1.same q) := by
    intro e
    by_cases he : e.1.components = q.components
    · rw [hkeep he]
    · simp [Path.same, he]
  cases hq : keep q <;> simp [hsame, hq]

theorem erase_eq_filter (m : FileMap α) (p : Path) : m.erase p = m.filter fun k => !k.same p := rfl

theorem find?_erase_eq (m : FileMap α) (p q : Path) :
    (m.erase p).find? q = if p.components = q.components then none else m.find? q := by
  rw [erase_eq_filter, find?_filter fun h => by simp [Path.same, h]]
  by_cases hpq : p.components = q.components <;> simp [Path.same, hpq, Ne.symm]

theorem get?_erase (m : FileMap α) (p q : Path) :
    (m.erase p).get? q = if p.components = q.components then none else m.get? q := by
  rw [get?, get?, find?_erase_eq]
  split <;> rfl

theorem find?_erase {p q : Path} (hpq : p.components ≠ q.components) (m : FileMap α) :
    (m.erase p).find? q = m.find? q :=
  (find?_erase_eq m p q).trans (if_neg hpq)

theorem find?_alter {p q : Path} (hpq : p.components ≠ q.components) (m : FileMap α)
    (f : Option α → α) : (m.alter p f).find? q = m.find? q := by
  obtain ⟨es⟩ := m
  change (alterEntries p f es).find? _ = es.find? _
  have hp : ¬p.same q = true := by simp [Path.same, hpq]
  induction es with
  | nil => exact List.find?_cons_of_neg hp
  | cons e es ih =>
    obtain ⟨k, a⟩ := e
    cases hc : compare p k <;> simp only [alterEntries, hc]
    · exact List.find?_cons_of_neg hp
    · have hk : ¬k.same q = true := by simp [Path.same, ← Path.compare_eq_iff.mp hc, hpq]
      have hskip : ∀ b : α, ((k, b) :: es).find? (fun e => e.1.same q) =
          es.find? fun e => e.1.same q := fun b => List.find?_cons_of_neg hk
      exact (hskip _).trans (hskip a).symm
    · rw [List.find?_cons, List.find?_cons, ih]

theorem get?_eq_none_iff {m : FileMap α} {q : Path} :
    m.get? q = none ↔ q.components ∉ m.keys.map Path.components := by
  rw [keys, List.map_map]
  exact valueAt_eq_none_iff.trans (by simp [eq_comm])

theorem contains_eq_isSome (m : FileMap α) (q : Path) : m.contains q = (m.get? q).isSome := by
  rw [Bool.eq_iff_iff, contains, get?, Option.isSome_map, find?, List.find?_isSome,
    List.any_eq_true]

theorem keys_components (m : FileMap α) : m.keys.map Path.components = m.contents.map (·.1) := by
  simp [keys, contents, Function.comp_def]

theorem map_eq_of_valueAt_eq (es fs : List (Path × α))
    (he : Ascending es) (hf : Ascending fs) (h : ∀ q, valueAt es q = valueAt fs q) :
    (es.map fun e => (e.1.components, e.2)) = fs.map fun e => (e.1.components, e.2) := by
  induction es generalizing fs with
  | nil =>
    cases fs with
    | nil => rfl
    | cons f fs =>
      have hn : valueAt (f :: fs) f.1 = none := (h f.1).symm
      exact absurd rfl (valueAt_eq_none_iff.mp hn f List.mem_cons_self)
  | cons e es ih =>
    obtain ⟨k, a⟩ := e
    cases fs with
    | nil => exact absurd rfl (valueAt_eq_none_iff.mp (h k) (k, a) List.mem_cons_self)
    | cons f fs =>
      obtain ⟨j, b⟩ := f
      have hk := h k
      have hj := h j
      cases hc : compare k j with
      | lt => simp [valueAt_eq_none_of_lt (lt_of_lt_head hc hf), valueAt_cons] at hk
      | gt =>
        have hc := Std.OrientedCmp.gt_iff_lt.mp hc
        simp [valueAt_eq_none_of_lt (lt_of_lt_head hc he), valueAt_cons] at hj
      | eq =>
        have hkj := Path.compare_eq_iff.mp hc
        rw [valueAt_cons, valueAt_cons, if_pos rfl, if_pos hkj.symm] at hk
        have ht : ∀ q, valueAt es q = valueAt fs q := by
          intro q
          by_cases hq : k.components = q.components
          · have h1 : valueAt es q = none := valueAt_eq_none_iff.mpr fun e hm =>
              hq ▸ (Path.components_ne_of_lt (List.rel_of_pairwise_cons he hm)).symm
            have h2 : valueAt fs q = none := valueAt_eq_none_iff.mpr fun e hm =>
              hq ▸ hkj ▸ (Path.components_ne_of_lt (List.rel_of_pairwise_cons hf hm)).symm
            rw [h1, h2]
          · have hq' : j.components ≠ q.components := hkj ▸ hq
            simpa only [valueAt_cons, if_neg hq, if_neg hq'] using h q
        rw [List.map_cons, List.map_cons, ih fs he.of_cons hf.of_cons ht, hkj, Option.some.inj hk]

theorem contents_eq {m n : FileMap α} (hm : m.Sorted) (hn : n.Sorted)
    (h : ∀ q, m.get? q = n.get? q) : m.contents = n.contents :=
  map_eq_of_valueAt_eq m.entries n.entries hm hn h

theorem entries_eq_nil_of_contents {m : FileMap α} (h : m.contents = []) : m.entries = [] :=
  List.map_eq_nil_iff.mp h

end FileMap

end BuildWatch
