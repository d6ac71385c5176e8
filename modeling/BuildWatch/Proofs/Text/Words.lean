import BuildWatch.Proofs.Text.Lines

namespace BuildWatch.Text

/-- A text that is not empty and has no blank at either end. There may be blanks inside. -/
structure Tight (s : List Char) : Prop where
  first : ∃ c ∈ s.head?, isBlank c = false
  last : ∃ c ∈ s.getLast?, isBlank c = false

instance (s : List Char) : Decidable (Tight s) :=
  decidable_of_iff (s.head?.any (!isBlank ·) = true ∧ s.getLast?.any (!isBlank ·) = true) <| by
    simp only [Option.any_eq_true, Bool.not_eq_true']
    exact ⟨fun h => ⟨h.1, h.2⟩, fun h => ⟨h.first, h.last⟩⟩

structure Word (s : List Char) : Prop where
  ne_nil : s ≠ []
  solid : ∀ c ∈ s, isBlank c = false

instance (s : List Char) : Decidable (Word s) :=
  decidable_of_iff (s.isEmpty = false ∧ s.all (!isBlank ·) = true) <| by
    simp only [List.isEmpty_eq_false_iff, List.all_eq_true, Bool.not_eq_true']
    exact ⟨fun h => ⟨h.1, h.2⟩, fun h => ⟨h.ne_nil, h.solid⟩⟩

variable {s t before after : List Char}

section Trimming

theorem Tight.ne_nil (h : Tight s) : s ≠ [] := by
  rintro rfl
  obtain ⟨_, hc, -⟩ := h.first
  cases hc

theorem Word.tight (h : Word s) : Tight s := by
  refine ⟨⟨s.head h.ne_nil, List.head?_eq_some_head h.ne_nil, ?_⟩,
    ⟨s.getLast h.ne_nil, List.getLast?_eq_some_getLast h.ne_nil, ?_⟩⟩
  · exact h.solid _ (List.head_mem h.ne_nil)
  · exact h.solid _ (List.getLast_mem h.ne_nil)

theorem Tight.append (hs : Tight s) (ht : Tight t) (middle : List Char) :
    Tight (s ++ middle ++ t) := by
  obtain ⟨c, hc, hsolid⟩ := hs.first
  obtain ⟨d, hd, hsolid'⟩ := ht.last
  refine ⟨⟨c, ?_, hsolid⟩, ⟨d, ?_, hsolid'⟩⟩
  · rw [List.append_assoc]
    exact List.mem_head?_append_of_mem_head? hc
  · rw [List.getLast?_append_of_ne_nil _ ht.ne_nil]
    exact hd

theorem trimStart_append (hb : allBlank before = true) (s : List Char) :
    trimStart (before ++ s) = trimStart s :=
  List.dropWhile_append_of_pos (List.all_eq_true.mp hb)

theorem trim_append (ha : allBlank after = true) (s : List Char) : trim (s ++ after) = trim s := by
  induction after using List.reverseRecOn with
  | nil => rw [List.append_nil]
  | append_singleton after c ih =>
    obtain ⟨ha, hc⟩ := allBlank_append.mp ha
    rw [← List.append_assoc, trim_append_blank (allBlank_cons.mp hc).1, ih ha]

theorem trim_of_tight (h : Tight s) : trim s = s := by
  obtain ⟨c, hc, hsolid⟩ := h.first
  obtain ⟨d, hd, hsolid'⟩ := h.last
  obtain ⟨rest, hrest⟩ := List.head?_eq_some_iff.mp hc
  obtain ⟨front, hfront⟩ := List.getLast?_eq_some_iff.mp hd
  have hstart : trimStart s = s := by
    rw [hrest]
    exact List.dropWhile_cons_of_neg (by rw [hsolid]; exact Bool.false_ne_true)
  rw [trim, hstart, hfront]
  exact List.rdropWhile_concat_neg isBlank _ _ (by rw [hsolid']; exact Bool.false_ne_true)

theorem trim_surround (hb : allBlank before = true) (ha : allBlank after = true) (h : Tight s) :
    trim (before ++ s ++ after) = s := by
  rw [trim_append ha, trim, trimStart_append hb]
  exact trim_of_tight h

theorem tight_trim (h : allBlank s = false) : Tight (trim s) := by
  have hne : trim s ≠ [] := trim_eq_nil_iff.not.mpr (Bool.eq_false_iff.mp h)
  refine ⟨⟨(trim s).head hne, List.head?_eq_some_head hne, ?_⟩,
    ⟨(trim s).getLast hne, List.getLast?_eq_some_getLast hne, ?_⟩⟩
  · obtain ⟨rest, hrest⟩ : trim s <+: trimStart s := List.rdropWhile_prefix isBlank _
    have hsolid := List.head?_dropWhile_not isBlank s
    rw [← trimStart, ← hrest, List.head?_append_of_ne_nil _ hne,
      List.head?_eq_some_head hne] at hsolid
    exact hsolid
  · exact Bool.eq_false_iff.mpr (List.rdropWhile_last_not isBlank _ hne)

theorem exists_surround (s : List Char) :
    ∃ before after, allBlank before = true ∧ allBlank after = true ∧
      s = before ++ trim s ++ after := by
  refine ⟨s.takeWhile isBlank, (trimStart s).rtakeWhile isBlank,
    List.all_eq_true.mpr fun c => List.mem_takeWhile_imp,
    List.all_eq_true.mpr fun c => List.mem_rtakeWhile_imp, ?_⟩
  have hend : trim s ++ (trimStart s).rtakeWhile isBlank = trimStart s :=
    List.rdropWhile_append_rtakeWhile
  rw [List.append_assoc, hend]
  exact List.takeWhile_append_dropWhile.symm

end Trimming

section Splitting

theorem splitAtBlank_eq_none_iff : splitAtBlank s = none ↔ ∀ c ∈ s, isBlank c = false := by
  induction s with
  | nil => simp [splitAtBlank]
  | cons c s ih =>
    rw [splitAtBlank, List.forall_mem_cons]
    cases isBlank c with
    | true => simp
    | false => simp [ih]

theorem splitAtBlank_eq_some_iff : splitAtBlank s = some (before, after) ↔
    (∀ c ∈ before, isBlank c = false) ∧ ∃ c, isBlank c = true ∧ s = before ++ c :: after := by
  induction s generalizing before with
  | nil => simp [splitAtBlank]
  | cons c s ih =>
    rw [splitAtBlank]
    split
    · next hc =>
      constructor
      · intro h
        cases h
        exact ⟨nofun, c, hc, rfl⟩
      · rintro ⟨hsolid, d, hd, hs⟩
        cases before with
        | nil => rw [(List.cons.inj hs).2]
        | cons b before =>
          rw [(List.cons.inj hs).1, hsolid b List.mem_cons_self] at hc
          cases hc
    · next hc =>
      rw [Option.map_eq_some_iff]
      constructor
      · rintro ⟨⟨before', after'⟩, hsplit, h⟩
        obtain ⟨rfl, rfl⟩ := Prod.mk.inj h
        obtain ⟨hsolid, d, hd, rfl⟩ := ih.mp hsplit
        exact ⟨List.forall_mem_cons.mpr ⟨Bool.eq_false_iff.mpr hc, hsolid⟩, d, hd, rfl⟩
      · rintro ⟨hsolid, d, hd, hs⟩
        cases before with
        | nil =>
          rw [(List.cons.inj hs).1] at hc
          exact absurd hd hc
        | cons b before =>
          obtain ⟨rfl, rfl⟩ := List.cons.inj hs
          exact ⟨(before, after), ih.mpr ⟨(List.forall_mem_cons.mp hsolid).2, d, hd, rfl⟩, rfl⟩

end Splitting

end BuildWatch.Text
