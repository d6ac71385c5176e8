import BuildWatch.Text.Lines
import Mathlib.Data.List.DropRight
import Mathlib.Data.List.TakeWhile

namespace BuildWatch.Text

/-- The last line of a text that is not blank, with what is before and after it. -/
structure LastVisible (s before body after : List Char) : Prop where
  split : s = before ++ body ++ after
  starts : before = [] ∨ before.getLast? = some '\n'
  inside : '\n' ∉ body
  ends : after = [] ∨ after.head? = some '\n'
  visible : allBlank body = false
  last : allBlank after = true

variable {s t u cur line : List Char}

section Trimming

theorem allBlank_append : allBlank (s ++ t) = true ↔ allBlank s = true ∧ allBlank t = true := by
  rw [allBlank, List.all_append, Bool.and_eq_true]
  rfl

theorem allBlank_cons {c : Char} :
    allBlank (c :: s) = true ↔ isBlank c = true ∧ allBlank s = true := by
  rw [allBlank, List.all_cons, Bool.and_eq_true]
  rfl

theorem trimStart_eq_nil_iff : trimStart s = [] ↔ allBlank s = true :=
  List.dropWhile_eq_nil_iff.trans List.all_eq_true.symm

theorem trim_eq_nil_iff : trim s = [] ↔ allBlank s = true := by
  constructor
  · intro h
    have hblank : allBlank (trimStart s) = true :=
      List.all_eq_true.mpr (List.rdropWhile_eq_nil_iff.mp h)
    rw [← List.takeWhile_append_dropWhile (p := isBlank) (l := s)]
    exact allBlank_append.mpr ⟨List.all_eq_true.mpr fun c => List.mem_takeWhile_imp, hblank⟩
  · intro h
    rw [trim, trimStart_eq_nil_iff.mpr h]
    rfl

theorem trim_append_blank {c : Char} (hc : isBlank c = true) (s : List Char) :
    trim (s ++ [c]) = trim s := by
  by_cases hs : allBlank s = true
  · have hmore : allBlank (s ++ [c]) = true :=
      allBlank_append.mpr ⟨hs, allBlank_cons.mpr ⟨hc, rfl⟩⟩
    rw [trim_eq_nil_iff.mpr hs, trim_eq_nil_iff.mpr hmore]
  · have hstart : trimStart (s ++ [c]) = trimStart s ++ [c] := by
      rw [trimStart, List.dropWhile_append, if_neg]
      · rfl
      · rw [List.isEmpty_iff]
        exact fun h => hs (trimStart_eq_nil_iff.mp h)
    rw [trim, hstart]
    exact List.rdropWhile_concat_pos isBlank _ _ hc

end Trimming

section Lines

def lastOf (ls : List (List Char)) : Option (List Char) :=
  (ls.reverse.map trim).find? fun l => !l.isEmpty

theorem lastOf_append (ls ms : List (List Char)) :
    lastOf (ls ++ ms) = (lastOf ms).or (lastOf ls) := by
  rw [lastOf, List.reverse_append, List.map_append, List.find?_append]
  rfl

theorem lastOf_singleton (l : List Char) :
    lastOf [l] = if trim l = [] then none else some (trim l) := by
  cases h : trim l <;> simp [lastOf, h]

theorem linesFrom_append_break (cur s t : List Char) :
    linesFrom cur (s ++ '\n' :: t) = linesFrom cur (s ++ ['\n']) ++ lines t := by
  induction s generalizing cur with
  | nil => rfl
  | cons c s ih =>
    simp only [List.cons_append, linesFrom]
    split
    · rw [ih, List.cons_append]
    · exact ih _

/-- A carriage return at the end of a line is a blank, so to take it away does not matter. -/
theorem lastOf_linesFrom_break (cur s : List Char) :
    lastOf (linesFrom cur (s ++ ['\n'])) = lastOf (linesFrom cur s) := by
  induction s generalizing cur with
  | nil =>
    cases cur with
    | nil => rfl
    | cons c cur =>
      by_cases hc : c = '\r'
      · have hreturn : trim (cur.reverse ++ ['\r']) = trim cur.reverse :=
          trim_append_blank rfl cur.reverse
        have hends : lastOf [cur.reverse] = lastOf [cur.reverse ++ ['\r']] := by
          rw [lastOf_singleton, lastOf_singleton, hreturn]
        rw [hc, ← List.reverse_cons] at *
        exact hends
      · simp [linesFrom, hc]
  | cons c s ih =>
    simp only [List.cons_append, linesFrom]
    split
    · have hrest := ih []
      rw [← List.singleton_append, lastOf_append, hrest, ← lastOf_append, List.singleton_append]
    · exact ih _

theorem linesFrom_of_noBreak (hs : '\n' ∉ s) (cur : List Char) :
    linesFrom cur s = if cur.reverse ++ s = [] then [] else [cur.reverse ++ s] := by
  induction s generalizing cur with
  | nil => simp [linesFrom]
  | cons c s ih =>
    obtain ⟨hc, hs⟩ := List.ne_and_not_mem_of_not_mem_cons hs
    have hstep : linesFrom cur (c :: s) = linesFrom (c :: cur) s := by
      simp only [linesFrom, if_neg hc.symm]
    rw [hstep, ih hs]
    simp

theorem lastVisibleLine_append_break (s t : List Char) :
    lastVisibleLine (s ++ '\n' :: t) = (lastVisibleLine t).or (lastVisibleLine s) := by
  have hs : lastOf (lines (s ++ ['\n'])) = lastOf (lines s) := lastOf_linesFrom_break [] s
  change lastOf (linesFrom [] (s ++ '\n' :: t)) = (lastOf (lines t)).or (lastOf (lines s))
  rw [linesFrom_append_break, lastOf_append, ← hs]
  rfl

theorem lastVisibleLine_of_noBreak (hs : '\n' ∉ s) :
    lastVisibleLine s = if trim s = [] then none else some (trim s) := by
  change lastOf (linesFrom [] s) = _
  rw [linesFrom_of_noBreak hs, List.reverse_nil, List.nil_append]
  cases s with
  | nil => rfl
  | cons c s => exact lastOf_singleton (c :: s)

theorem lastVisibleLine_eq_none_iff : lastVisibleLine s = none ↔ allBlank s = true := by
  induction hn : s.length using Nat.strongRecOn generalizing s with
  | _ n ih =>
    by_cases hbreak : '\n' ∈ s
    · obtain ⟨u, t, rfl, hu⟩ := List.eq_append_cons_of_mem hbreak
      have hlength : u.length + (t.length + 1) = n := by
        rw [← hn, List.length_append, List.length_cons]
      rw [lastVisibleLine_append_break, Option.or_eq_none_iff, ih t.length (by omega) rfl,
        ih u.length (by omega) rfl, allBlank_append, allBlank_cons, and_comm]
      exact and_congr_right fun _ => (and_iff_right rfl).symm
    · rw [lastVisibleLine_of_noBreak hbreak, ← trim_eq_nil_iff]
      split <;> simp_all

theorem LastVisible.found {before body after : List Char} (h : LastVisible s before body after) :
    lastVisibleLine s = some (trim body) := by
  have hbody : lastVisibleLine body = some (trim body) := by
    have hvisible : trim body ≠ [] := trim_eq_nil_iff.not.mpr (Bool.eq_false_iff.mp h.visible)
    rw [lastVisibleLine_of_noBreak h.inside, if_neg hvisible]
  have hafter : lastVisibleLine (body ++ after) = some (trim body) := by
    rcases h.ends with hnil | hbreak
    · rw [hnil, List.append_nil, hbody]
    · obtain ⟨rest, hrest⟩ := List.head?_eq_some_iff.mp hbreak
      have hblank := h.last
      rw [hrest, allBlank_cons] at hblank
      rw [hrest, lastVisibleLine_append_break, lastVisibleLine_eq_none_iff.mpr hblank.2,
        Option.none_or, hbody]
  rw [h.split, List.append_assoc]
  rcases h.starts with hnil | hbreak
  · rw [hnil, List.nil_append, hafter]
  · obtain ⟨front, hfront⟩ := List.getLast?_eq_some_iff.mp hbreak
    rw [hfront, List.append_assoc, List.singleton_append, lastVisibleLine_append_break, hafter,
      Option.some_or]

theorem exists_lastVisible (h : lastVisibleLine s = some line) :
    ∃ before body after, LastVisible s before body after ∧ line = trim body := by
  induction hn : s.length using Nat.strongRecOn generalizing s with
  | _ n ih =>
    have hfirst : ∀ u, '\n' ∉ u → lastVisibleLine u = some line →
        allBlank u = false ∧ line = trim u := by
      intro u hu hline
      rw [lastVisibleLine_of_noBreak hu] at hline
      split at hline
      · cases hline
      · next hne => exact ⟨Bool.eq_false_iff.mpr (trim_eq_nil_iff.not.mp hne),
          (Option.some.inj hline).symm⟩
    by_cases hbreak : '\n' ∈ s
    · obtain ⟨u, t, rfl, hu⟩ := List.eq_append_cons_of_mem hbreak
      rw [lastVisibleLine_append_break] at h
      cases ht : lastVisibleLine t with
      | none =>
        rw [ht, Option.none_or] at h
        obtain ⟨hvisible, hline⟩ := hfirst u hu h
        have hblank : allBlank ('\n' :: t) = true :=
          allBlank_cons.mpr ⟨rfl, lastVisibleLine_eq_none_iff.mp ht⟩
        exact ⟨[], u, '\n' :: t, ⟨rfl, .inl rfl, hu, .inr rfl, hvisible, hblank⟩, hline⟩
      | some found =>
        rw [ht, Option.some_or, Option.some.injEq] at h
        have hlt : t.length < n := by
          rw [← hn, List.length_append, List.length_cons]
          omega
        obtain ⟨before, body, after, hlast, hline⟩ := ih t.length hlt (h ▸ ht) rfl
        refine ⟨u ++ '\n' :: before, body, after, ⟨?_, .inr ?_, hlast.inside, hlast.ends,
          hlast.visible, hlast.last⟩, hline⟩
        · rw [hlast.split]
          simp
        · rcases hlast.starts with rfl | hstarts
          · exact List.getLast?_concat
          · obtain ⟨front, rfl⟩ := List.getLast?_eq_some_iff.mp hstarts
            rw [← List.cons_append, ← List.append_assoc, List.getLast?_concat]
    · obtain ⟨hvisible, hline⟩ := hfirst s hbreak h
      exact ⟨[], s, [], ⟨by simp, .inl rfl, hbreak, .inl rfl, hvisible, rfl⟩, hline⟩

end Lines

end BuildWatch.Text
