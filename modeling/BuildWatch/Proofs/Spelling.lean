import BuildWatch.Proofs.Resolution
import Mathlib.Data.List.Basic

namespace BuildWatch.Path

variable {s t first : List Char} {rest : List (List Char)}

section Pieces

theorem segments_ne_nil (s : List Char) : segments s ≠ [] := by
  cases s with
  | nil => exact List.cons_ne_nil _ _
  | cons c s =>
    rw [segments]
    split
    · exact List.cons_ne_nil _ _
    · split <;> exact List.cons_ne_nil _ _

theorem segments_of_ne {c : Char} (hc : c ≠ '/') (s : List Char) :
    segments (c :: s) = (segments s).modifyHead (c :: ·) := by
  rw [segments, if_neg hc]
  cases h : segments s with
  | nil => exact absurd h (segments_ne_nil s)
  | cons piece pieces => rfl

theorem segments_eq_splitOn (s : List Char) : segments s = s.splitOn '/' := by
  induction s with
  | nil => rfl
  | cons c s ih =>
    have hcons : (c :: s).splitOn '/' =
        if c == '/' then [] :: s.splitOn '/' else (s.splitOn '/').modifyHead (c :: ·) :=
      List.splitOnP_cons_eq_if_modifyHead ..
    rw [hcons, ← ih]
    by_cases hc : c = '/'
    · rw [segments, if_pos hc, if_pos (beq_iff_eq.mpr hc)]
    · rw [segments_of_ne hc, if_neg (fun h => hc (beq_iff_eq.mp h))]

theorem intercalate_segments (s : List Char) : ['/'].intercalate (segments s) = s := by
  rw [segments_eq_splitOn, List.intercalate_splitOn]

theorem segments_injective (h : segments s = segments t) : s = t := by
  rw [← intercalate_segments s, h, intercalate_segments]

def front (first : List Char) : Component :=
  if first = [] then .root else if first = ['.'] then .current else .ofStep (.ofList first)

theorem front_eq_root_iff {piece : List Char} : front piece = .root ↔ piece = [] := by
  refine ⟨fun h => ?_, fun h => if_pos h⟩
  by_contra hne
  rw [front, if_neg hne] at h
  split at h
  · cases h
  · exact (ofStep_ne _).1 h

theorem front_eq_current_iff {piece : List Char} : front piece = .current ↔ piece = ['.'] := by
  refine ⟨fun h => ?_, fun h => by rw [h]; rfl⟩
  by_contra hdot
  rw [front, if_neg hdot] at h
  split at h
  · cases h
  · exact (ofStep_ne _).2 h

theorem front_injective {a b : List Char} (h : front a = front b) : a = b := by
  by_cases ha : a = []
  · rw [front_eq_root_iff.mpr ha] at h
    rw [ha, front_eq_root_iff.mp h.symm]
  by_cases hdot : a = ['.']
  · rw [front_eq_current_iff.mpr hdot] at h
    rw [hdot, front_eq_current_iff.mp h.symm]
  have hb : b ≠ [] := fun hb => ha (front_eq_root_iff.mp (h.trans (front_eq_root_iff.mpr hb)))
  have hdot' : b ≠ ['.'] := fun hb =>
    hdot (front_eq_current_iff.mp (h.trans (front_eq_current_iff.mpr hb)))
  rw [front, front, if_neg ha, if_neg hdot, if_neg hb, if_neg hdot'] at h
  exact String.ofList_injective (ofStep_injective h)

/-- A path that is not empty has a component for the piece at its front, and one for every other
piece that does not vanish. -/
theorem componentsOf_eq (hs : s ≠ []) (h : segments s = first :: rest) :
    componentsOf s = front first :: rest.filterMap step? := by
  have hjoin := intercalate_segments s
  rw [h] at hjoin
  fun_cases componentsOf s with
  | case1 s =>
    obtain ⟨rfl, rfl⟩ : [] = first ∧ segments s = rest := List.cons.inj h
    rfl
  | case2 =>
    obtain ⟨rfl, rfl⟩ : ['.'] = first ∧ [] = rest := List.cons.inj h
    rfl
  | case3 s =>
    obtain ⟨rfl, rfl⟩ : ['.'] = first ∧ segments s = rest := List.cons.inj h
    rfl
  | case4 s steps hroot hdot hcurrent =>
    -- a piece at the front that vanishes would be the whole text, or followed by a slash
    have hrest : first = s ∨ ∃ more, first ++ '/' :: more = s := by
      cases rest with
      | nil => exact .inl (List.intercalate_singleton.symm.trans hjoin)
      | cons piece rest =>
        rw [List.intercalate_cons_cons, List.append_assoc] at hjoin
        exact .inr ⟨_, hjoin⟩
    have hvisible : first ≠ [] ∧ first ≠ ['.'] := by
      rcases hrest with rfl | ⟨more, rfl⟩
      · exact ⟨hs, hdot⟩
      · exact ⟨fun hnil => hroot more (by rw [hnil]; rfl), fun hd => hcurrent more (by rw [hd]; rfl)⟩
    change (segments s).filterMap step? = _
    rw [h, List.filterMap_cons, step?_eq, if_pos hvisible, front, if_neg hvisible.1,
      if_neg hvisible.2]

end Pieces

section Neat

/-- A path that is written without pieces that vanish: no empty one, which is what repeated slashes
and one at the end make, and no `.` but at the front. -/
def Neat (p : Path) : Prop :=
  p.text = "/" ∨ ∀ piece ∈ (segments p.text.toList).tail, piece ≠ [] ∧ piece ≠ ['.']

instance (p : Path) : Decidable p.Neat := inferInstanceAs (Decidable (_ ∨ _))

theorem filterMap_step?_injective {rest' : List (List Char)}
    (hrest : ∀ piece ∈ rest, piece ≠ [] ∧ piece ≠ ['.'])
    (hrest' : ∀ piece ∈ rest', piece ≠ [] ∧ piece ≠ ['.'])
    (h : rest.filterMap step? = rest'.filterMap step?) : rest = rest' := by
  have hkept : ∀ {pieces : List (List Char)}, (∀ piece ∈ pieces, piece ≠ [] ∧ piece ≠ ['.']) →
      (pieces.filter fun piece => piece ≠ [] ∧ piece ≠ ['.']) = pieces := fun h =>
    List.filter_eq_self.mpr fun piece hpiece => decide_eq_true (h piece hpiece)
  rw [filterMap_step?, filterMap_step?, hkept hrest, hkept hrest',
    List.map_inj_right fun _ _ => ofStep_injective] at h
  exact List.map_injective_iff.mpr (fun _ _ => String.ofList_injective) h

theorem exists_components {p : Path} (h : p.text.toList ≠ []) :
    ∃ first rest, segments p.text.toList = first :: rest ∧
      p.components = front first :: rest.filterMap step? := by
  obtain ⟨first, rest, hpieces⟩ := List.exists_cons_of_ne_nil (segments_ne_nil p.text.toList)
  exact ⟨first, rest, hpieces, componentsOf_eq h hpieces⟩

theorem components_eq_nil_iff {p : Path} : p.components = [] ↔ p.text.toList = [] := by
  constructor
  · intro h
    by_contra hne
    obtain ⟨first, rest, -, hcomponents⟩ := exists_components hne
    rw [hcomponents] at h
    cases h
  · intro h
    rw [components, h]
    rfl

theorem text_of_root {p : Path} (hp : p.Neat) (h : p.components = [.root]) : p.text = "/" := by
  rcases hp with hslash | hneat
  · exact hslash
  · have htext : p.text.toList ≠ [] := fun hnil => by simp [components_eq_nil_iff.mpr hnil] at h
    obtain ⟨first, rest, hpieces, hcomponents⟩ := exists_components htext
    rw [hcomponents] at h
    obtain ⟨hfirst, hrest⟩ := List.cons.inj h
    rw [hpieces] at hneat
    have hnone : rest = [] := filterMap_step?_injective hneat nofun hrest
    rw [front_eq_root_iff.mp hfirst, hnone] at hpieces
    exact absurd (segments_injective (t := []) hpieces) htext

theorem Neat.tail {p : Path} (hp : p.Neat) (h : p.components ≠ [.root]) :
    ∀ piece ∈ (segments p.text.toList).tail, piece ≠ [] ∧ piece ≠ ['.'] := by
  refine hp.resolve_left fun hslash => h ?_
  rw [components, hslash]
  rfl

theorem text_eq_of_neat {p q : Path} (hp : p.Neat) (hq : q.Neat)
    (h : p.components = q.components) : p.text = q.text := by
  by_cases hroot : p.components = [.root]
  · rw [text_of_root hp hroot, text_of_root hq (h ▸ hroot)]
  rw [← String.toList_inj]
  by_cases hnil : p.components = []
  · rw [components_eq_nil_iff.mp hnil, components_eq_nil_iff.mp (h ▸ hnil)]
  obtain ⟨first, rest, hs, hcomponents⟩ := exists_components (components_eq_nil_iff.not.mp hnil)
  obtain ⟨first', rest', hs', hcomponents'⟩ :=
    exists_components (components_eq_nil_iff.not.mp (h ▸ hnil))
  have hrest := hp.tail hroot
  have hrest' := hq.tail (h ▸ hroot)
  rw [hs, List.tail_cons] at hrest
  rw [hs', List.tail_cons] at hrest'
  rw [hcomponents, hcomponents'] at h
  obtain ⟨hfirst, hsteps⟩ := List.cons.inj h
  apply segments_injective
  rw [hs, hs', front_injective hfirst, filterMap_step?_injective hrest hrest' hsteps]

end Neat

section FileName

theorem segments_of_noSlash (h : '/' ∉ t) : segments t = [t] := by
  induction t with
  | nil => rfl
  | cons c t ih =>
    obtain ⟨hc, ht⟩ := List.ne_and_not_mem_of_not_mem_cons h
    rw [segments_of_ne hc.symm, ih ht]
    rfl

theorem segments_append (s : List Char) (h : '/' ∉ t) :
    ∃ init last, segments (s ++ t) = init ++ [last ++ t] := by
  induction s with
  | nil => exact ⟨[], [], segments_of_noSlash h⟩
  | cons c s ih =>
    obtain ⟨init, last, hpieces⟩ := ih
    rw [List.cons_append]
    by_cases hc : c = '/'
    · rw [segments, if_pos hc, hpieces]
      exact ⟨[] :: init, last, rfl⟩
    · rw [segments_of_ne hc, hpieces]
      cases init with
      | nil => exact ⟨[], c :: last, rfl⟩
      | cons piece init => exact ⟨(c :: piece) :: init, last, rfl⟩

theorem fileName?_of_segments {p : Path} {init : List (List Char)} {name : List Char}
    (h : segments p.text.toList = init ++ [name]) (hname : ∃ c ∈ name, c ≠ '.') :
    p.fileName? = some (.ofList name) := by
  obtain ⟨c, hc, hdot⟩ := hname
  have hdots : ∀ n, name ≠ .replicate n '.' := fun n hn =>
    hdot (List.eq_of_mem_replicate (hn ▸ hc))
  have hvisible : name ≠ [] ∧ name ≠ ['.'] := ⟨hdots 0, hdots 1⟩
  have hstep : Component.ofStep (.ofList name) = .normal (.ofList name) :=
    if_neg fun hup => hdots 2 (String.ofList_injective hup)
  have htext : p.text.toList ≠ [] := by
    intro hnil
    rw [hnil] at h
    have hmem : name ∈ segments [] := h ▸ List.mem_concat_self
    exact hvisible.1 (List.mem_singleton.mp hmem)
  have hlast : p.components.getLast? = some (.normal (.ofList name)) := by
    cases init with
    | nil =>
      rw [components, componentsOf_eq htext h, front, if_neg hvisible.1, if_neg hvisible.2, hstep]
      rfl
    | cons first init =>
      have hpieces : segments p.text.toList = first :: (init ++ [name]) := h
      rw [components, componentsOf_eq htext hpieces, List.filterMap_append, List.filterMap_cons,
        step?_eq, if_pos hvisible, hstep, ← List.cons_append]
      exact List.getLast?_concat
  rw [fileName?, hlast]

/-- What a path ends with is the end of its file name if it has no slash and is more than dots. -/
theorem exists_fileName {p : Path} (h : t <:+ p.text.toList) (hslash : '/' ∉ t)
    (hname : ∃ c ∈ t, c ≠ '.') : ∃ name, p.fileName? = some name ∧ t <:+ name.toList := by
  obtain ⟨s, hs⟩ := h
  obtain ⟨init, last, hpieces⟩ := segments_append s hslash
  rw [hs] at hpieces
  obtain ⟨c, hc, hdot⟩ := hname
  refine ⟨.ofList (last ++ t),
    fileName?_of_segments hpieces ⟨c, List.mem_append_right last hc, hdot⟩, ?_⟩
  rw [String.toList_ofList]
  exact List.suffix_append last t

end FileName

end BuildWatch.Path
