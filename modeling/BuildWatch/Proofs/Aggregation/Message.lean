import BuildWatch.Aggregation
import BuildWatch.Proofs.Text.Words

namespace BuildWatch

namespace Text

def visible (s : List Char) : List Char := s.filter fun c => !isBlank c

variable {s t : List Char}

theorem visible_append (s t : List Char) : visible (s ++ t) = visible s ++ visible t :=
  List.filter_append ..

theorem visible_eq_nil_iff : visible s = [] ↔ allBlank s = true := by
  simp [visible, allBlank]

theorem exists_visible (h : visible s ≠ []) : ∃ c ∈ s, isBlank c = false := by
  obtain ⟨c, hc⟩ := List.exists_mem_of_ne_nil _ h
  obtain ⟨hmem, hsolid⟩ := List.mem_filter.mp hc
  exact ⟨c, hmem, by simpa using hsolid⟩

theorem visible_trim (s : List Char) : visible (trim s) = visible s := by
  obtain ⟨before, after, hb, ha, hs⟩ := exists_surround s
  have hwhole := congrArg visible hs
  rw [visible_append, visible_append, visible_eq_nil_iff.mpr hb, visible_eq_nil_iff.mpr ha,
    List.nil_append, List.append_nil] at hwhole
  exact hwhole.symm

theorem intercalate_cons_cons (l m : String) (ls : List String) :
    ("\n".intercalate (l :: m :: ls)).toList =
      l.toList ++ '\n' :: ("\n".intercalate (m :: ls)).toList := by
  simp

theorem visible_intercalate (ls : List String) :
    visible ("\n".intercalate ls).toList = ls.flatMap fun l => visible l.toList := by
  induction ls with
  | nil => rfl
  | cons l ls ih =>
    cases ls with
    | nil => simp
    | cons m ls =>
      have hbreak : visible ('\n' :: ("\n".intercalate (m :: ls)).toList) =
          visible ("\n".intercalate (m :: ls)).toList := List.filter_cons_of_neg (by decide)
      rw [intercalate_cons_cons, visible_append, hbreak, ih]
      rfl

theorem splitOn_intercalate (ls : List String) (h : ls ≠ []) :
    ("\n".intercalate ls).toList.splitOn '\n' = ls.flatMap fun l => l.toList.splitOn '\n' := by
  induction ls with
  | nil => exact absurd rfl h
  | cons l ls ih =>
    cases ls with
    | nil => simp
    | cons m ls =>
      rw [intercalate_cons_cons, List.splitOn_append_cons_self, ih (List.cons_ne_nil m ls)]
      rfl

end Text

namespace Record

open Text

theorem trimmed_eq_empty_iff {s : String} : trimmed s = "" ↔ allBlank s.toList = true := by
  rw [← trim_eq_nil_iff, trimmed, ← String.toList_inj, String.toList_ofList]
  rfl

theorem paragraphs_eq (r : Record) :
    r.paragraphs =
      if trimmed r.extras = "" then r.details.map Noise.strip
      else trimmed r.extras :: r.details.map Noise.strip := by
  by_cases h : trim r.extras.toList = []
  · rw [if_pos (trimmed_eq_empty_iff.mpr (trim_eq_nil_iff.mp h)), paragraphs, h]
    rfl
  · rw [if_neg (trimmed_eq_empty_iff.not.mpr (trim_eq_nil_iff.not.mp h)), paragraphs,
      if_neg (by simpa using h)]
    rfl

theorem visible_paragraphs (r : Record) :
    (r.paragraphs.flatMap fun l => visible l.toList) =
      visible r.extras.toList ++ (r.details.map Noise.strip).flatMap fun l => visible l.toList := by
  rw [paragraphs_eq]
  split
  · next h => rw [visible_eq_nil_iff.mpr (trimmed_eq_empty_iff.mp h), List.nil_append]
  · rw [List.flatMap_cons, trimmed, String.toList_ofList, visible_trim]

theorem blank_paragraphs_iff (r : Record) :
    (∀ l ∈ r.paragraphs, allBlank l.toList = true) ↔
      ∀ l ∈ trimmed r.extras :: r.details.map Noise.strip, allBlank l.toList = true := by
  rw [paragraphs_eq]
  split
  · next h =>
    rw [List.forall_mem_cons, h]
    exact (and_iff_right rfl).symm
  · exact Iff.rfl

theorem message_of_blank {r : Record} (h : ∀ l ∈ r.paragraphs, allBlank l.toList = true) :
    r.message = "build error" := if_pos (List.all_eq_true.mpr h)

theorem message_of_visible {r : Record} (h : ¬∀ l ∈ r.paragraphs, allBlank l.toList = true) :
    r.message = "\n".intercalate r.paragraphs := if_neg (List.all_eq_true.not.mpr h)

theorem visible_message {r : Record} (h : ¬∀ l ∈ r.paragraphs, allBlank l.toList = true) :
    visible r.message.toList = r.paragraphs.flatMap fun l => visible l.toList := by
  rw [message_of_visible h, visible_intercalate]

theorem exists_visible_message (r : Record) : ∃ c ∈ r.message.toList, isBlank c = false := by
  by_cases h : ∀ l ∈ r.paragraphs, allBlank l.toList = true
  · rw [message_of_blank h]
    exact ⟨'b', List.mem_cons_self, by decide⟩
  · refine exists_visible fun hnil => h fun l hl => ?_
    rw [visible_message h, List.flatMap_eq_nil_iff] at hnil
    exact visible_eq_nil_iff.mp (hnil l hl)

/-- A message always shows something. It has the lines of the trimmed extras and then those of each
detail without its noise, the blank ones too, and so nothing that can be seen is lost. If there is
nothing to be seen of all these, the message is a placeholder. -/
theorem message_tells (isPrimary : SourceTest) (r : Record) :
    let extras := trimmed r.extras
    let details := r.details.map Noise.strip
    let lines := if extras = "" then details else extras :: details
    let message := (r.diagnostic isPrimary).message
    (∃ c ∈ message.toList, isBlank c = false) ∧
    ((∀ l ∈ extras :: details, allBlank l.toList = true) → message = "build error") ∧
    ((∃ l ∈ extras :: details, allBlank l.toList = false) →
      message = "\n".intercalate lines ∧
      message.toList.splitOn '\n' = lines.flatMap (fun l => l.toList.splitOn '\n') ∧
      visible message.toList =
        visible r.extras.toList ++ details.flatMap fun l => visible l.toList) := by
  intro extras details lines message
  have hlines : r.paragraphs = lines := paragraphs_eq r
  have htold : message = r.message := rfl
  clear_value message
  subst htold
  refine ⟨exists_visible_message r, fun hblank => ?_, fun ⟨l, hl, hvisible⟩ => ?_⟩
  · exact message_of_blank ((blank_paragraphs_iff r).mpr hblank)
  · have hsome : ¬∀ l ∈ r.paragraphs, allBlank l.toList = true := by
      intro hblank
      rw [(blank_paragraphs_iff r).mp hblank l hl] at hvisible
      cases hvisible
    have hmessage : r.message = "\n".intercalate lines := hlines ▸ message_of_visible hsome
    have hne : lines ≠ [] := by
      intro hnil
      rw [hlines, hnil] at hsome
      exact hsome nofun
    refine ⟨hmessage, ?_, ?_⟩
    · rw [hmessage, splitOn_intercalate lines hne]
    · exact (visible_message hsome).trans (visible_paragraphs r)

example : (Record.mk "A" 1 0 " a\n" ["[warn] b", "[info] ", "c"]).message = "a\nb\n\nc" ∧
    (Record.mk "A" 1 0 " \n" ["[info] ", "  "]).message = "build error" := by
  decide +kernel

end Record

end BuildWatch
