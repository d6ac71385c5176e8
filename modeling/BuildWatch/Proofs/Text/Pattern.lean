import BuildWatch.Text.Pattern
import Mathlib.Data.List.Basic

namespace BuildWatch.Text.Pattern

variable {α : Type}

def Matches : Pattern → List Char → Prop
  | .empty, u => u = []
  | .one accepts, u => ∃ c, u = [c] ∧ accepts c = true
  | .seq p q, u => ∃ x y, u = x ++ y ∧ p.Matches x ∧ q.Matches y
  | .choice p q, u => p.Matches u ∨ q.Matches u
  | .many accepts, u => ∀ c ∈ u, accepts c = true
  | .few accepts, u => ∀ c ∈ u, accepts c = true

/-- One way for a pattern to match at the front of `s`: it takes `u`, and on what is left the rest of
the run answers `a`. -/
structure Way (p : Pattern) (next : List Char → Option α) (s u v : List Char) (a : α) : Prop where
  split : s = u ++ v
  matched : p.Matches u
  answer : next v = some a

variable {p q : Pattern} {accepts : Char → Bool} {next : List Char → Option α}
variable {s u v u' v' : List Char} {a b : α}

theorem run_seq : (seq p q).run next = p.run (q.run next) := rfl

theorem rest?_seq : (seq p q).rest? s = p.run (q.run some) s := rfl

theorem Way.answer_unique (h : Way p next s u v a) (h' : Way p next s u' v' b)
    (hl : u.length = u'.length) : a = b := by
  obtain ⟨-, rfl⟩ := List.append_inj (h.split.symm.trans h'.split) hl
  exact Option.some.inj (h.answer.symm.trans h'.answer)

section Repetition

variable (hp : ∀ u, p.Matches u ↔ ∀ c ∈ u, accepts c = true)

include hp

theorem Way.nil_of_repeats (h : next s = some a) : Way p next s [] s a :=
  ⟨rfl, (hp []).mpr (List.forall_mem_nil _), h⟩

theorem Way.cons_of_repeats {c : Char} (hc : accepts c = true) (h : Way p next s u v a) :
    Way p next (c :: s) (c :: u) v a := by
  obtain ⟨rfl, hu, hv⟩ := h
  exact ⟨rfl, (hp _).mpr (List.forall_mem_cons.mpr ⟨hc, (hp u).mp hu⟩), hv⟩

theorem Way.of_cons_of_repeats {c d : Char} (h : Way p next (c :: s) (d :: u) v a) :
    accepts c = true ∧ Way p next s u v a := by
  obtain ⟨hcs, hu, hv⟩ := h
  obtain ⟨rfl, hs⟩ := List.cons.inj hcs
  obtain ⟨hc, hu⟩ := List.forall_mem_cons.mp ((hp _).mp hu)
  exact ⟨hc, hs, (hp u).mpr hu, hv⟩

end Repetition

theorem takeMany_of_way (h : Way (.many accepts) next s u v a) :
    ∃ b, takeMany accepts next s = some b := by
  obtain ⟨rfl, hu, hv⟩ := h
  induction u with
  | nil =>
    cases v with
    | nil => exact ⟨a, hv⟩
    | cons c v =>
      rw [List.nil_append, takeMany]
      cases takeMany accepts next v <;> by_cases hc : accepts c = true <;> simp [hc, hv]
  | cons c u ih =>
    obtain ⟨hc, hu⟩ := List.forall_mem_cons.mp hu
    obtain ⟨b, hb⟩ := ih hu
    exact ⟨b, by rw [List.cons_append, takeMany, if_pos hc, hb]⟩

theorem takeFew_of_way (h : Way (.few accepts) next s u v a) :
    ∃ b, takeFew accepts next s = some b := by
  obtain ⟨rfl, hu, hv⟩ := h
  induction u with
  | nil =>
    cases v with
    | nil => exact ⟨a, hv⟩
    | cons c v => exact ⟨a, by rw [List.nil_append, takeFew, hv]⟩
  | cons c u ih =>
    obtain ⟨hc, hu⟩ := List.forall_mem_cons.mp hu
    obtain ⟨b, hb⟩ := ih hu
    rw [List.cons_append, takeFew, if_pos hc, hb]
    cases next (c :: (u ++ v)) <;> simp

theorem longest_of_takeMany (h : takeMany accepts next s = some a) :
    ∃ u v, Way (.many accepts) next s u v a ∧
      ∀ u' v' b, Way (.many accepts) next s u' v' b → u'.length ≤ u.length := by
  have hmany : ∀ u, (many accepts).Matches u ↔ ∀ c ∈ u, accepts c = true := fun _ => Iff.rfl
  induction s with
  | nil =>
    refine ⟨[], [], Way.nil_of_repeats hmany h, fun u' v' b hw => ?_⟩
    obtain ⟨rfl, -⟩ := List.append_eq_nil_iff.mp hw.split.symm
    exact Nat.le_refl _
  | cons c s ih =>
    by_cases hmore : accepts c = true ∧ takeMany accepts next s ≠ none
    · obtain ⟨hc, hne⟩ := hmore
      obtain ⟨b, hb⟩ := Option.ne_none_iff_exists'.mp hne
      rw [takeMany, if_pos hc, hb] at h
      obtain ⟨u, v, hw, hlong⟩ := ih (hb.trans h)
      refine ⟨c :: u, v, hw.cons_of_repeats hmany hc, fun u' v' b' hw' => ?_⟩
      cases u' with
      | nil => exact Nat.zero_le _
      | cons d u' =>
        obtain ⟨-, hw'⟩ := hw'.of_cons_of_repeats hmany
        exact Nat.succ_le_succ (hlong u' v' b' hw')
    · have hnow : next (c :: s) = some a := by
        rw [← h, takeMany]
        by_cases hc : accepts c = true
        · have hnone : takeMany accepts next s = none := by
            by_contra hne
            exact hmore ⟨hc, hne⟩
          rw [if_pos hc, hnone]
        · rw [if_neg hc]
      refine ⟨[], c :: s, Way.nil_of_repeats hmany hnow, fun u' v' b hw => ?_⟩
      cases u' with
      | nil => exact Nat.le_refl _
      | cons d u' =>
        obtain ⟨hc, hw⟩ := hw.of_cons_of_repeats hmany
        obtain ⟨b', hb'⟩ := takeMany_of_way hw
        exact absurd ⟨hc, Option.ne_none_iff_exists'.mpr ⟨b', hb'⟩⟩ hmore

theorem shortest_of_takeFew (h : takeFew accepts next s = some a) :
    ∃ u v, Way (.few accepts) next s u v a ∧
      ∀ u' v' b, Way (.few accepts) next s u' v' b → u.length ≤ u'.length := by
  have hfew : ∀ u, (few accepts).Matches u ↔ ∀ c ∈ u, accepts c = true := fun _ => Iff.rfl
  induction s with
  | nil => exact ⟨[], [], Way.nil_of_repeats hfew h, fun _ _ _ _ => Nat.zero_le _⟩
  | cons c s ih =>
    rw [takeFew] at h
    cases hnow : next (c :: s) with
    | some b =>
      rw [hnow] at h
      exact ⟨[], c :: s, Way.nil_of_repeats hfew (hnow.trans h), fun _ _ _ _ => Nat.zero_le _⟩
    | none =>
      simp only [hnow] at h
      by_cases hc : accepts c = true
      · rw [if_pos hc] at h
        obtain ⟨u, v, hw, hshort⟩ := ih h
        refine ⟨c :: u, v, hw.cons_of_repeats hfew hc, fun u' v' b hw' => ?_⟩
        cases u' with
        | nil =>
          have hv' := hw'.answer
          rw [← List.nil_append v', ← hw'.split, hnow] at hv'
          cases hv'
        | cons d u' =>
          obtain ⟨-, hw'⟩ := hw'.of_cons_of_repeats hfew
          exact Nat.succ_le_succ (hshort u' v' b hw')
      · rw [if_neg hc] at h
        cases h

theorem way_of_run (h : p.run next s = some a) : ∃ u v, Way p next s u v a := by
  induction p generalizing next s with
  | empty => exact ⟨[], s, rfl, rfl, h⟩
  | one accepts =>
    cases s with
    | nil => cases h
    | cons c s =>
      rw [run] at h
      by_cases hc : accepts c = true
      · rw [if_pos hc] at h
        exact ⟨[c], s, rfl, ⟨c, rfl, hc⟩, h⟩
      · rw [if_neg hc] at h
        cases h
  | seq p q ihp ihq =>
    obtain ⟨x, w, hs, hx, hw⟩ := ihp h
    obtain ⟨y, v, rfl, hy, hv⟩ := ihq hw
    exact ⟨x ++ y, v, by rw [hs, List.append_assoc], ⟨x, y, rfl, hx, hy⟩, hv⟩
  | choice p q ihp ihq =>
    rw [run] at h
    cases hp : p.run next s with
    | some b =>
      rw [hp] at h
      obtain ⟨u, v, hs, hu, hv⟩ := ihp (hp.trans h)
      exact ⟨u, v, hs, .inl hu, hv⟩
    | none =>
      rw [hp] at h
      obtain ⟨u, v, hs, hu, hv⟩ := ihq h
      exact ⟨u, v, hs, .inr hu, hv⟩
  | many accepts =>
    obtain ⟨u, v, hw, -⟩ := longest_of_takeMany h
    exact ⟨u, v, hw⟩
  | few accepts =>
    obtain ⟨u, v, hw, -⟩ := shortest_of_takeFew h
    exact ⟨u, v, hw⟩

/-- Where there is a way to match a run has an answer, though it may be that of another way. -/
theorem run_of_way (h : Way p next s u v a) : ∃ b, p.run next s = some b := by
  induction p generalizing next s u v a with
  | empty =>
    obtain ⟨rfl, rfl, hv⟩ := h
    exact ⟨a, hv⟩
  | one accepts =>
    obtain ⟨rfl, ⟨c, rfl, hc⟩, hv⟩ := h
    exact ⟨a, by rw [List.singleton_append, run, if_pos hc, hv]⟩
  | seq p q ihp ihq =>
    obtain ⟨rfl, ⟨x, y, rfl, hx, hy⟩, hv⟩ := h
    obtain ⟨b, hb⟩ := ihq ⟨rfl, hy, hv⟩
    exact ihp ⟨List.append_assoc .., hx, hb⟩
  | choice p q ihp ihq =>
    rw [run]
    cases hp : p.run next s with
    | some b => exact ⟨b, rfl⟩
    | none =>
      obtain ⟨hs, hu | hu, hv⟩ := h
      · obtain ⟨b, hb⟩ := ihp ⟨hs, hu, hv⟩
        rw [hb] at hp
        cases hp
      · exact ihq ⟨hs, hu, hv⟩
  | many accepts => exact takeMany_of_way h
  | few accepts => exact takeFew_of_way h

theorem run_eq_none_iff : p.run next s = none ↔ ∀ u v a, ¬Way p next s u v a := by
  constructor
  · intro h u v a hw
    obtain ⟨b, hb⟩ := run_of_way hw
    rw [h] at hb
    cases hb
  · intro h
    cases hs : p.run next s with
    | none => rfl
    | some a =>
      obtain ⟨u, v, hw⟩ := way_of_run hs
      exact absurd hw (h u v a)

theorem Way.run_eq (h : Way p next s u v a)
    (hlength : ∀ b, p.run next s = some b →
      ∃ u' v', Way p next s u' v' b ∧ u'.length = u.length) : p.run next s = some a := by
  obtain ⟨b, hb⟩ := run_of_way h
  obtain ⟨u', v', hw, hl⟩ := hlength b hb
  rw [hb, hw.answer_unique h hl]

theorem run_many_eq_some_iff :
    (many accepts).run next s = some a ↔
      ∃ u v, Way (.many accepts) next s u v a ∧
        ∀ u' v' b, Way (.many accepts) next s u' v' b → u'.length ≤ u.length := by
  constructor
  · exact longest_of_takeMany
  · intro ⟨u, v, hw, hlong⟩
    apply hw.run_eq
    intro b hb
    obtain ⟨u', v', hw', hlong'⟩ := longest_of_takeMany hb
    exact ⟨u', v', hw', Nat.le_antisymm (hlong _ _ _ hw') (hlong' _ _ _ hw)⟩

theorem shortest_of_run_few1 (h : (few1 accepts).run next s = some a) :
    ∃ u v, Way (few1 accepts) next s u v a ∧
      ∀ u' v' b, Way (few1 accepts) next s u' v' b → u.length ≤ u'.length := by
  obtain ⟨_, w, rfl, ⟨c, rfl, hc⟩, hw⟩ := way_of_run (p := .one accepts) h
  obtain ⟨u, v, ⟨rfl, hu, hv⟩, hshort⟩ := shortest_of_takeFew hw
  refine ⟨c :: u, v, ⟨rfl, ⟨[c], u, rfl, ⟨c, rfl, hc⟩, hu⟩, hv⟩, ?_⟩
  rintro _ v' b ⟨hs, ⟨_, y, rfl, ⟨d, rfl, hd⟩, hy⟩, hv'⟩
  exact Nat.succ_le_succ (hshort y v' b ⟨(List.cons.inj hs).2, hy, hv'⟩)

theorem run_few1_eq_some_iff :
    (few1 accepts).run next s = some a ↔
      ∃ u v, Way (few1 accepts) next s u v a ∧
        ∀ u' v' b, Way (few1 accepts) next s u' v' b → u.length ≤ u'.length := by
  constructor
  · exact shortest_of_run_few1
  · intro ⟨u, v, hw, hshort⟩
    apply hw.run_eq
    intro b hb
    obtain ⟨u', v', hw', hshort'⟩ := shortest_of_run_few1 hb
    exact ⟨u', v', hw', Nat.le_antisymm (hshort' _ _ _ hw) (hshort _ _ _ hw')⟩

/-- Where there is but one way to match the order of the choices does not count. -/
theorem run_eq_some_iff_of_unique
    (h : ∀ u v a u' v' b, Way p next s u v a → Way p next s u' v' b → u = u') :
    p.run next s = some a ↔ ∃ u v, Way p next s u v a := by
  constructor
  · exact way_of_run
  · intro ⟨u, v, hw⟩
    apply hw.run_eq
    intro b hb
    obtain ⟨u', v', hw'⟩ := way_of_run hb
    exact ⟨u', v', hw', congrArg List.length (h _ _ _ _ _ _ hw' hw)⟩

/-- Nothing is given back when the rest of the pattern always has an answer. -/
theorem run_many_of_total (h : ∀ v, next v ≠ none) :
    (many accepts).run next s = next (s.dropWhile accepts) := by
  induction s with
  | nil => rfl
  | cons c s ih =>
    have ih : takeMany accepts next s = next (s.dropWhile accepts) := ih
    rw [run, takeMany]
    by_cases hc : accepts c = true
    · obtain ⟨a, ha⟩ := Option.ne_none_iff_exists'.mp (h (s.dropWhile accepts))
      rw [if_pos hc, ih, List.dropWhile_cons_of_pos hc, ha]
    · rw [if_neg hc, List.dropWhile_cons_of_neg hc]

theorem matches_ofList {t : List Char} : (ofList t).Matches u ↔ u = t := by
  induction t generalizing u with
  | nil => exact Iff.rfl
  | cons c t ih =>
    constructor
    · rintro ⟨_, y, hu, ⟨d, rfl, hd⟩, hy⟩
      rw [hu, ih.mp hy, of_decide_eq_true hd, List.singleton_append]
    · intro hu
      exact ⟨[c], t, hu, ⟨c, rfl, decide_eq_true rfl⟩, ih.mpr rfl⟩

theorem matches_many1 : (many1 accepts).Matches u ↔ u ≠ [] ∧ ∀ c ∈ u, accepts c = true := by
  constructor
  · rintro ⟨_, y, hu, ⟨c, rfl, hc⟩, hy⟩
    rw [hu, List.singleton_append]
    exact ⟨List.cons_ne_nil c y, List.forall_mem_cons.mpr ⟨hc, hy⟩⟩
  · intro ⟨hne, hu⟩
    cases u with
    | nil => exact absurd rfl hne
    | cons c u =>
      obtain ⟨hc, hu⟩ := List.forall_mem_cons.mp hu
      exact ⟨[c], u, rfl, ⟨c, rfl, hc⟩, hu⟩

theorem matches_few1 : (few1 accepts).Matches u ↔ u ≠ [] ∧ ∀ c ∈ u, accepts c = true :=
  matches_many1

theorem matches_char {c : Char} : (char c).Matches u ↔ u = [c] := by
  constructor
  · intro ⟨d, hu, hd⟩
    rw [hu, of_decide_eq_true hd]
  · intro hu
    exact ⟨c, hu, decide_eq_true rfl⟩

end BuildWatch.Text.Pattern
