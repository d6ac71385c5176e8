import BuildWatch.Proofs.Noise.Location

namespace BuildWatch.Noise

open Text Text.Pattern

def tags : List (List Char) :=
  ["[debug]", "[info]", "[warn]", "[error]"].map String.toList

def firstLine (s : List Char) : List Char := s.takeWhile (· ≠ '\n')

def Tagged (s : List Char) : Prop := ∃ t ∈ tags, t <:+: firstLine s

def AfterLastTag (s rest : List Char) : Prop :=
  ∃ before, ∃ t ∈ tags, s = before ++ t ++ rest ∧ before ++ t <+: firstLine s ∧
    ∀ before', ∀ t' ∈ tags, before' ++ t' <+: firstLine s → before'.length ≤ before.length

/-- What is left of a text without the log noise in front of it. -/
inductive Stripped (s : List Char) : List Char → Prop where
  | untagged (h : ¬Tagged s) : Stripped s s
  | unlocated {rest : List Char} (h : AfterLastTag s rest)
    (hno : ∀ file place more, ¬Located (trimStart rest) file place more) :
    Stripped s (trimStart rest)
  | located {rest file place more : List Char} (h : AfterLastTag s rest)
    (hl : Located (trimStart rest) file place more)
    (hshort : ∀ file' place' more', Located (trimStart rest) file' place' more' →
      file.length ≤ file'.length) :
    Stripped s (trimStart more)

section Tags

variable {α : Type} {next : List Char → Option α} {s t t' v w w' x : List Char} {a : α}

theorem matches_level :
    level.Matches t ↔ t ∈ ["debug", "info", "warn", "error"].map String.toList := by
  simp only [level, Matches, matches_ofList, List.map_cons, List.map_nil, List.mem_cons,
    List.not_mem_nil, or_false]

theorem matches_tag : tag.Matches t ↔ t ∈ tags := by
  have htags : tags =
      (["debug", "info", "warn", "error"].map String.toList).map fun l => '[' :: (l ++ [']']) := by
    decide
  rw [htags, List.mem_map]
  constructor
  · intro h
    obtain ⟨y, rfl, l, x, rfl, hl, hx⟩ := matches_char_seq.mp h
    exact ⟨l, matches_level.mp hl, by rw [matches_char.mp hx]⟩
  · intro ⟨l, hl, ht⟩
    exact matches_char_seq.mpr
      ⟨l ++ [']'], ht.symm, l, [']'], rfl, matches_level.mpr hl, matches_char.mpr rfl⟩

theorem tag_append_inj (ht : t ∈ tags) (ht' : t' ∈ tags) (h : t ++ w = t' ++ w') : t = t' := by
  simp only [tags, List.map_cons, List.map_nil, List.mem_cons, List.not_mem_nil, or_false] at ht ht'
  obtain rfl | rfl | rfl | rfl := ht <;> obtain rfl | rfl | rfl | rfl := ht' <;> simp_all

theorem run_tag : tag.run next v = some a ↔ ∃ t ∈ tags, ∃ w, v = t ++ w ∧ next w = some a := by
  have hunique : ∀ u x a u' x' b, Way tag next v u x a → Way tag next v u' x' b → u = u' := by
    intro u x a u' x' b h h'
    apply tag_append_inj (matches_tag.mp h.matched) (matches_tag.mp h'.matched)
    rw [← h.split, ← h'.split]
  rw [run_eq_some_iff_of_unique hunique]
  constructor
  · intro ⟨t, w, hv, ht, hw⟩
    exact ⟨t, matches_tag.mp ht, w, hv, hw⟩
  · intro ⟨t, ht, w, hv, hw⟩
    exact ⟨t, w, hv, matches_tag.mpr ht, hw⟩

theorem prefix_firstLine_iff : x <+: firstLine s ↔ x <+: s ∧ '\n' ∉ x := by
  constructor
  · intro h
    refine ⟨h.trans (List.takeWhile_prefix _), fun hx => ?_⟩
    have hmem := List.all_eq_true.mp List.all_takeWhile _ (h.subset hx)
    exact of_decide_eq_true hmem rfl
  · rintro ⟨⟨w, rfl⟩, hx⟩
    have hall : ∀ c ∈ x, decide (c ≠ '\n') = true := by
      intro c hc
      refine decide_eq_true fun he => hx ?_
      rwa [← he]
    rw [firstLine, List.takeWhile_append_of_pos hall]
    exact List.prefix_append x _

theorem noBreak_of_mem_tags (ht : t ∈ tags) : '\n' ∉ t := by
  revert t
  decide

theorem tag_ne_nil (ht : t ∈ tags) : t ≠ [] := by
  revert t
  decide

theorem tagged_iff : Tagged s ↔ ∃ before, ∃ t ∈ tags, before ++ t <+: firstLine s := by
  constructor
  · intro ⟨t, ht, before, w, h⟩
    exact ⟨before, t, ht, w, h⟩
  · intro ⟨before, t, ht, w, h⟩
    exact ⟨t, ht, before, w, h⟩

theorem way_before {before : List Char} :
    (∃ v, Way (.many (· ≠ '\n')) (tag.run next) s before v a) ↔
      ∃ t ∈ tags, ∃ rest, s = before ++ t ++ rest ∧ before ++ t <+: firstLine s ∧
        next rest = some a := by
  constructor
  · intro ⟨v, hs, hb, hv⟩
    obtain ⟨t, ht, rest, rfl, ha⟩ := run_tag.mp hv
    rw [← List.append_assoc] at hs
    refine ⟨t, ht, rest, hs, prefix_firstLine_iff.mpr ⟨⟨rest, hs.symm⟩, fun hmem => ?_⟩, ha⟩
    rcases List.mem_append.mp hmem with hmem | hmem
    · exact of_decide_eq_true (hb _ hmem) rfl
    · exact noBreak_of_mem_tags ht hmem
  · intro ⟨t, ht, rest, hs, hpre, ha⟩
    obtain ⟨-, hno⟩ := prefix_firstLine_iff.mp hpre
    refine ⟨t ++ rest, by rw [hs, List.append_assoc], fun c hc => decide_eq_true ?_,
      run_tag.mpr ⟨t, ht, rest, rfl, ha⟩⟩
    rintro rfl
    exact hno (List.mem_append_left t hc)

end Tags

section Strip

variable {s r rest : List Char}

def afterLocation (s : List Char) : List Char := (location.rest? s).getD s

theorem run_afterTag :
    (Pattern.seq (.many isBlank) (opt location)).run some s = some (afterLocation (trimStart s)) := by
  have hopt : ∀ v, (opt location).run some v = some (afterLocation v) := by
    intro v
    rw [opt, Pattern.run, afterLocation, Pattern.rest?]
    cases location.run some v <;> rfl
  have htotal : ∀ v, (opt location).run some v ≠ none := by
    intro v
    rw [hopt]
    exact Option.some_ne_none _
  rw [run_seq, run_many_of_total htotal, hopt, trimStart]

theorem rest?_pattern_eq_some_iff :
    pattern.rest? s = some r ↔ ∃ rest, AfterLastTag s rest ∧ afterLocation (trimStart rest) = r := by
  rw [pattern, rest?_seq, run_seq, run_many_eq_some_iff]
  constructor
  · intro ⟨before, v, hway, hlong⟩
    obtain ⟨t, ht, rest, hs, hpre, hr⟩ := way_before.mp ⟨v, hway⟩
    rw [run_afterTag] at hr
    refine ⟨rest, ⟨before, t, ht, hs, hpre, fun before' t' ht' hpre' => ?_⟩, Option.some.inj hr⟩
    obtain ⟨⟨w, hw⟩, -⟩ := prefix_firstLine_iff.mp hpre'
    obtain ⟨v', hway'⟩ := way_before.mpr ⟨t', ht', w, hw.symm, hpre', run_afterTag⟩
    exact hlong before' v' _ hway'
  · intro ⟨rest, ⟨before, t, ht, hs, hpre, hlast⟩, hr⟩
    obtain ⟨v, hway⟩ := way_before.mpr ⟨t, ht, rest, hs, hpre, run_afterTag⟩
    rw [hr] at hway
    refine ⟨before, v, hway, fun before' v' r' hway' => ?_⟩
    obtain ⟨t', ht', -, -, hpre', -⟩ := way_before.mp ⟨v', hway'⟩
    exact hlast before' t' ht' hpre'

theorem rest?_pattern_eq_none_iff : pattern.rest? s = none ↔ ¬Tagged s := by
  rw [pattern, rest?_seq, run_seq, run_eq_none_iff, tagged_iff]
  constructor
  · intro h ⟨before, t, ht, hpre⟩
    obtain ⟨⟨w, hw⟩, -⟩ := prefix_firstLine_iff.mp hpre
    obtain ⟨v, hway⟩ := way_before.mpr ⟨t, ht, w, hw.symm, hpre, run_afterTag⟩
    exact h before v _ hway
  · intro h before v r hway
    obtain ⟨t, ht, -, -, hpre, -⟩ := way_before.mp ⟨v, hway⟩
    exact h ⟨before, t, ht, hpre⟩

theorem stripped_stripChars (s : List Char) : Stripped s (stripChars s) := by
  rw [stripChars]
  cases hs : pattern.rest? s with
  | none => exact .untagged (rest?_pattern_eq_none_iff.mp hs)
  | some r =>
    obtain ⟨rest, hrest, rfl⟩ := rest?_pattern_eq_some_iff.mp hs
    rw [Option.getD_some, afterLocation]
    cases hloc : location.rest? (trimStart rest) with
    | none => exact .unlocated hrest (rest?_location_eq_none_iff.mp hloc)
    | some r =>
      obtain ⟨file, place, more, hl, hshort, rfl⟩ := rest?_location_eq_some_iff.mp hloc
      exact .located hrest hl hshort

theorem stripChars_of_stripped (h : Stripped s r) : stripChars s = r := by
  have htagged : ∀ {rest}, AfterLastTag s rest → stripChars s = afterLocation (trimStart rest) := by
    intro rest hrest
    rw [stripChars, rest?_pattern_eq_some_iff.mpr ⟨rest, hrest, rfl⟩, Option.getD_some]
  cases h with
  | untagged h => rw [stripChars, rest?_pattern_eq_none_iff.mpr h, Option.getD_none]
  | unlocated hrest hno =>
    rw [htagged hrest, afterLocation, rest?_location_eq_none_iff.mpr hno, Option.getD_none]
  | located hrest hl hshort =>
    rw [htagged hrest, afterLocation,
      rest?_location_eq_some_iff.mpr ⟨_, _, _, hl, hshort, rfl⟩, Option.getD_some]

theorem toList_strip (line : String) : (strip line).toList = stripChars line.toList :=
  String.toList_ofList

/-- Stripping a text is to scan it once: to look for the last tag on its first line, to skip the
blanks after it, and to skip the location with the shortest file, if there is any. -/
theorem strip_eq_iff (line out : String) :
    strip line = out ↔ Stripped line.toList out.toList := by
  constructor
  · rintro rfl
    rw [toList_strip]
    exact stripped_stripChars _
  · intro h
    rw [← String.toList_inj, toList_strip, stripChars_of_stripped h]

example : strip "12:00 [info] [warn]  a:b:3:(1,2)-(3,4): no:1:2: x" = "no:1:2: x" := by decide +kernel

end Strip

end BuildWatch.Noise
