import BuildWatch.Proofs.Spelling

namespace BuildWatch.Path

variable {p q : Path}

theorem isAbsolute_iff : p.isAbsolute = true ↔ p.text.toList.head? = some '/' := by
  rw [isAbsolute, decide_eq_true_iff]
  by_cases hp : p.text.toList = []
  · rw [components_eq_nil_iff.mpr hp, hp]
    simp
  · obtain ⟨first, rest, hpieces, hcomponents⟩ := exists_components hp
    rw [hcomponents, List.head?_cons, Option.some.injEq, front_eq_root_iff]
    obtain ⟨c, s, hs⟩ := List.exists_cons_of_ne_nil hp
    rw [hs] at hpieces ⊢
    by_cases hc : c = '/'
    · rw [segments, if_pos hc] at hpieces
      simp [hc, (List.cons.inj hpieces).1]
    · obtain ⟨piece, pieces, hmore⟩ := List.exists_cons_of_ne_nil (segments_ne_nil s)
      rw [segments_of_ne hc, hmore, List.modifyHead_cons] at hpieces
      simp [hc, ← (List.cons.inj hpieces).1]

theorem join_of_absolute (hq : q.isAbsolute = true) (p : Path) : p.join q = q :=
  if_pos (isAbsolute_iff.mp hq)

theorem join_of_text_eq (hp : p.text = "") (q : Path) : p.join q = q := by
  rw [join, hp]
  by_cases hq : q.text.toList.head? = some '/'
  · rw [if_pos hq]
  · rw [if_neg hq, if_pos (by decide), String.empty_append]

theorem segments_append_slash (s t : List Char) :
    segments (s ++ '/' :: t) = segments s ++ segments t := by
  induction s with
  | nil => rfl
  | cons c s ih =>
    by_cases hc : c = '/'
    · rw [List.cons_append, segments, if_pos hc, ih, segments, if_pos hc, List.cons_append]
    · obtain ⟨piece, pieces, hpieces⟩ := List.exists_cons_of_ne_nil (segments_ne_nil s)
      rw [List.cons_append, segments_of_ne hc, ih, segments_of_ne hc, hpieces]
      rfl

theorem current_not_mem_filterMap (pieces : List (List Char)) :
    Component.current ∉ pieces.filterMap step? := by
  rw [List.mem_filterMap]
  rintro ⟨piece, -, hpiece⟩
  unfold step? at hpiece
  split at hpiece <;> cases hpiece

/-- Of a relative path all pieces count but a dot at the front, which stays a component. -/
theorem filter_components (hq : q.isAbsolute = false) :
    q.components.filter (· ≠ .current) = (segments q.text.toList).filterMap step? := by
  by_cases htext : q.text.toList = []
  · rw [components_eq_nil_iff.mpr htext, htext]
    rfl
  · obtain ⟨first, rest, hpieces, hcomponents⟩ := exists_components htext
    have hne : first ≠ [] := by
      rintro rfl
      rw [isAbsolute, hcomponents] at hq
      cases hq
    have hrest : (rest.filterMap step?).filter (· ≠ .current) = rest.filterMap step? := by
      refine List.filter_eq_self.mpr fun c hc => decide_eq_true ?_
      rintro rfl
      exact current_not_mem_filterMap rest hc
    rw [hcomponents, hpieces, List.filterMap_cons, step?_eq]
    by_cases hdot : first = ['.']
    · rw [front_eq_current_iff.mpr hdot, List.filter_cons_of_neg (by simp), hrest,
        if_neg (fun h => h.2 hdot)]
    · have hfront : front first ≠ .current := front_eq_current_iff.not.mpr hdot
      rw [List.filter_cons_of_pos (by simpa using hfront), hrest, if_pos ⟨hne, hdot⟩, front,
        if_neg hne, if_neg hdot]

theorem components_join (hp : p.text ≠ "") (hq : q.isAbsolute = false) :
    (p.join q).components = p.components ++ q.components.filter (· ≠ .current) := by
  have hslash : ¬q.text.toList.head? = some '/' :=
    isAbsolute_iff.not.mp (Bool.eq_false_iff.mp hq)
  have htext : p.text.toList ≠ [] := fun h => hp (String.toList_eq_nil_iff.mp h)
  have hempty : p.text.isEmpty = false := by simpa using hp
  obtain ⟨s, hs, hjoin⟩ : ∃ s, (segments p.text.toList = segments s ∨
      segments p.text.toList = segments s ++ [[]]) ∧
      (p.join q).text.toList = s ++ '/' :: q.text.toList := by
    rw [join, if_neg hslash, hempty, Bool.false_or]
    by_cases hend : p.text.toList.getLast? = some '/'
    · obtain ⟨s, hs⟩ := List.getLast?_eq_some_iff.mp hend
      refine ⟨s, .inr ?_, ?_⟩
      · rw [hs, segments_append_slash]
        rfl
      · simp [String.toList_append, hs]
    · exact ⟨p.text.toList, .inl rfl, by simp [hend, String.toList_append]⟩
  obtain ⟨first, rest, hpieces⟩ := List.exists_cons_of_ne_nil (segments_ne_nil s)
  have hbase : p.components = front first :: rest.filterMap step? := by
    rcases hs with hs | hs
    · exact componentsOf_eq htext (hs.trans hpieces)
    · have hs : segments p.text.toList = first :: (rest ++ [[]]) := by rw [hs, hpieces]; rfl
      rw [components, componentsOf_eq htext hs, List.filterMap_append]
      exact congrArg _ (List.append_nil _)
  have hjoined : segments (p.join q).text.toList = first :: (rest ++ segments q.text.toList) := by
    rw [hjoin, segments_append_slash, hpieces, List.cons_append]
  have hne : (p.join q).text.toList ≠ [] := by simp [hjoin]
  rw [components, componentsOf_eq hne hjoined, List.filterMap_append, hbase, filter_components hq,
    List.cons_append]

end BuildWatch.Path
