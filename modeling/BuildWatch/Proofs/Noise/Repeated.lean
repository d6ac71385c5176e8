import BuildWatch.Proofs.Noise
import Mathlib.Logic.Function.Iterate

namespace BuildWatch.Noise

open Text

variable {s r rest x y : List Char}

theorem prefix_firstLine_append (hx : '\n' ∉ x) (h : y <+: firstLine s) :
    x ++ y <+: firstLine (x ++ s) := by
  obtain ⟨hpre, hy⟩ := prefix_firstLine_iff.mp h
  refine prefix_firstLine_iff.mpr ⟨(List.prefix_append_right_inj x).mpr hpre, fun hmem => ?_⟩
  rcases List.mem_append.mp hmem with hmem | hmem
  · exact hx hmem
  · exact hy hmem

theorem tagged_append (hx : '\n' ∉ x) (h : Tagged s) : Tagged (x ++ s) := by
  obtain ⟨before, t, ht, hpre⟩ := tagged_iff.mp h
  have hmore := prefix_firstLine_append hx hpre
  rw [← List.append_assoc] at hmore
  exact tagged_iff.mpr ⟨x ++ before, t, ht, hmore⟩

theorem AfterLastTag.untagged (h : AfterLastTag s rest) : ¬Tagged rest := by
  intro hrest
  obtain ⟨before, t, ht, rfl, hpre, hlast⟩ := h
  obtain ⟨before', t', ht', hpre'⟩ := tagged_iff.mp hrest
  have hno := (prefix_firstLine_iff.mp hpre).2
  have hlater := prefix_firstLine_append hno hpre'
  rw [← List.append_assoc] at hlater
  have hle := hlast _ t' ht' hlater
  have hpos := List.length_pos_iff.mpr (tag_ne_nil ht)
  simp only [List.length_append] at hle
  omega

theorem trimStart_suffix (s : List Char) : trimStart s <:+ s := List.dropWhile_suffix _

/-- What is left is the text itself, or an end of what follows the last tag. -/
theorem Stripped.cases_tagged (h : Stripped s r) :
    ¬Tagged s ∧ r = s ∨ ∃ rest, AfterLastTag s rest ∧ r <:+ rest := by
  cases h with
  | untagged h => exact .inl ⟨h, rfl⟩
  | unlocated hrest _ => exact .inr ⟨_, hrest, trimStart_suffix _⟩
  | located hrest hl _ =>
    refine .inr ⟨_, hrest, (trimStart_suffix _).trans ?_⟩
    refine List.IsSuffix.trans ?_ (trimStart_suffix _)
    rw [hl.split]
    exact (List.suffix_cons _ _).trans (List.suffix_append _ _)

theorem exists_noise (s : List Char) :
    ∃ noise, s = noise ++ stripChars s ∧ ('\n' ∉ noise → ¬Tagged (stripChars s)) ∧
      (Tagged s → noise ≠ []) := by
  obtain ⟨hno, hr⟩ | ⟨rest, hrest, x, hx⟩ := (stripped_stripChars s).cases_tagged
  · refine ⟨[], ?_, fun _ => ?_, fun h => absurd h hno⟩
    · rw [hr, List.nil_append]
    · rwa [hr]
  · have huntagged := hrest.untagged
    obtain ⟨before, t, ht, hs, -, -⟩ := hrest
    refine ⟨before ++ t ++ x, ?_, fun hbreak htagged => ?_, fun _ => ?_⟩
    · rw [List.append_assoc, hx, hs]
    · rw [← hx] at huntagged
      exact huntagged (tagged_append (fun hmem => hbreak (List.mem_append_right _ hmem)) htagged)
    · exact List.append_ne_nil_of_left_ne_nil
        (List.append_ne_nil_of_right_ne_nil before (tag_ne_nil ht)) x

theorem stripChars_eq_self_iff : stripChars s = s ↔ ¬Tagged s := by
  constructor
  · intro h htagged
    obtain ⟨noise, hs, -, hne⟩ := exists_noise s
    rw [h] at hs
    exact hne htagged (List.append_left_eq_self.mp hs.symm)
  · intro h
    exact stripChars_of_stripped (.untagged h)

/-- Where a tag is left a line break was taken away, so there is an end to it. -/
theorem untagged_iterate {n : Nat} (hn : s.count '\n' ≤ n) : ¬Tagged (stripChars^[n + 1] s) := by
  -- on the line breaks that are left: where the noise holds none, nothing changes from then on
  induction n generalizing s with
  | zero =>
    obtain ⟨noise, hs, huntagged, -⟩ := exists_noise s
    refine huntagged fun hmem => ?_
    have hno : '\n' ∉ s := List.count_eq_zero.mp (Nat.le_zero.mp hn)
    rw [hs] at hno
    exact hno (List.mem_append_left _ hmem)
  | succ n ih =>
    obtain ⟨noise, hs, huntagged, -⟩ := exists_noise s
    rw [Function.iterate_succ_apply]
    by_cases hbreak : '\n' ∈ noise
    · apply ih
      have hpos := List.count_pos_iff.mpr hbreak
      have hcount := congrArg (List.count '\n') hs
      rw [List.count_append] at hcount
      omega
    · have hsettled := stripChars_eq_self_iff.mpr (huntagged hbreak)
      rw [Function.iterate_fixed hsettled]
      exact huntagged hbreak

/-- Stripping is done with a text, so that to strip it again changes nothing, exactly if no tag is
left on the first line. So it is where the noise that was taken away holds no line break. Else the
blanks after the last tag may reach to a further line with a tag, but to strip a text once for each
of its lines is enough. -/
theorem strip_strip (line : String) :
    (∃ noise, line.toList = noise ++ (strip line).toList ∧
      ('\n' ∉ noise → strip (strip line) = strip line ∧ ¬Tagged (strip line).toList)) ∧
    (strip (strip line) = strip line ↔ ¬Tagged (strip line).toList) ∧
    ¬Tagged (strip^[line.toList.count '\n' + 1] line).toList := by
  have hagain : strip (strip line) = strip line ↔ ¬Tagged (strip line).toList := by
    rw [← stripChars_eq_self_iff, ← String.toList_inj, toList_strip]
  refine ⟨?_, hagain, ?_⟩
  · obtain ⟨noise, hs, huntagged, -⟩ := exists_noise line.toList
    rw [← toList_strip] at hs huntagged
    exact ⟨noise, hs, fun hbreak => ⟨hagain.mpr (huntagged hbreak), huntagged hbreak⟩⟩
  · have hiterate : ∀ n, (strip^[n] line).toList = stripChars^[n] line.toList := fun n =>
      Function.Semiconj.iterate_right (f := String.toList) toList_strip n line
    rw [hiterate]
    exact untagged_iterate (Nat.le_refl _)

theorem strip_strip_of_kept_break :
    let line := "12:00 [info] [debug] a\n[warn] b"
    strip line = "a\n[warn] b" ∧ strip (strip line) = strip line ∧ ¬Tagged (strip line).toList := by
  intro line
  have hline : strip line = "a\n[warn] b" := by decide +kernel
  obtain ⟨⟨noise, hnoise, hsettled⟩, -⟩ := strip_strip line
  refine ⟨hline, hsettled ?_⟩
  have hsplit : noise ++ "a\n[warn] b".toList =
      "12:00 [info] [debug] ".toList ++ "a\n[warn] b".toList := by
    rw [← hline, ← hnoise, hline]
    decide +kernel
  rw [List.append_cancel_right hsplit]
  decide

/-- The blanks after the last tag reach over the line break, and bring up another tag. -/
theorem strip_uncovers_tag :
    let line := "[info]\n[warn] x"
    strip line = "[warn] x" ∧ Tagged (strip line).toList ∧ strip (strip line) = "x" := by
  intro line
  have hline : strip line = "[warn] x" := by decide +kernel
  have hagain : strip "[warn] x" = "x" := by decide +kernel
  refine ⟨hline, ?_, ?_⟩
  · rw [hline]
    exact ⟨_, List.mem_cons_of_mem _ (List.mem_cons_of_mem _ List.mem_cons_self), [], " x".toList,
      by decide⟩
  · rw [hline, hagain]

end BuildWatch.Noise
