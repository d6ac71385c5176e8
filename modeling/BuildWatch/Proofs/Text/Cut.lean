import BuildWatch.Text.Lines
import Mathlib.Data.List.Basic

namespace BuildWatch.Text

section Span

variable {p : Char → Bool} {d d' s s' : List Char} {x x' : Char}

theorem takeWhile_run (hd : ∀ c ∈ d, p c = true) (hx : p x = false) :
    (d ++ x :: s).takeWhile p = d := by
  rw [List.takeWhile_append_of_pos hd, List.takeWhile_cons_of_neg (by simp [hx]), List.append_nil]

theorem run_append_inj (hd : ∀ c ∈ d, p c = true) (hd' : ∀ c ∈ d', p c = true)
    (hx : p x = false) (hx' : p x' = false) (h : d ++ x :: s = d' ++ x' :: s') :
    d = d' ∧ x = x' ∧ s = s' := by
  have hboth := congrArg (List.takeWhile p) h
  rw [takeWhile_run hd hx, takeWhile_run hd' hx'] at hboth
  subst hboth
  obtain ⟨rfl, rfl⟩ := List.cons.inj (List.append_cancel_left h)
  exact ⟨rfl, rfl, rfl⟩

end Span

def indentation : List Char := [' ', ' ', ' ', ' ']

/-- Cut a text into entries, each of which ends at a line break that no indentation follows. -/
def entries : List Char → List (List Char)
  | [] => []
  | c :: s =>
    if c = '\n' ∧ ¬indentation <+: s then [] :: entries s
    else match entries s with
      | [] => [[c]]
      | e :: es => (c :: e) :: es

def outdentRest : List Char → List Char
  | [] => []
  | '\n' :: ' ' :: ' ' :: ' ' :: ' ' :: s => '\n' :: outdentRest s
  | c :: s => c :: outdentRest s

theorem outdentRest_indentRest (s : List Char) : outdentRest (indentRest s) = s := by
  induction s with
  | nil => rfl
  | cons c s ih =>
    by_cases hc : c = '\n'
    · subst hc
      exact congrArg ('\n' :: ·) ih
    · have hcons : indentRest (c :: s) = c :: indentRest s := by
        simp [indentRest, hc]
      rw [hcons, outdentRest, ih]
      simp [hc]

def Indented : List Char → Prop
  | [] => True
  | c :: s => (c = '\n' → indentation <+: s) ∧ Indented s

variable {e s t : List Char}

theorem indented_append (hs : '\n' ∉ s) (ht : Indented t) : Indented (s ++ t) := by
  induction s with
  | nil => exact ht
  | cons c s ih =>
    rw [List.mem_cons, not_or] at hs
    obtain ⟨hc, hs⟩ := hs
    exact ⟨fun h => absurd h.symm hc, ih hs⟩

theorem indented_indentRest (s : List Char) : Indented (indentRest s) := by
  induction s with
  | nil => trivial
  | cons c s ih =>
    by_cases hc : c = '\n'
    · subst hc
      refine ⟨fun _ => List.prefix_append indentation (indentRest s), ?_⟩
      exact indented_append (s := indentation) (by decide) ih
    · have hcons : indentRest (c :: s) = [c] ++ indentRest s := by
        simp [indentRest, hc]
      rw [hcons]
      exact indented_append (fun h => hc (List.mem_singleton.mp h).symm) ih

theorem entries_append_break (he : Indented e) (hs : ¬indentation <+: s) :
    entries (e ++ '\n' :: s) = e :: entries s := by
  induction e with
  | nil => rw [List.nil_append, entries, if_pos ⟨rfl, hs⟩]
  | cons c e ih =>
    obtain ⟨hc, he⟩ := he
    have hinside : ¬(c = '\n' ∧ ¬indentation <+: e ++ '\n' :: s) := by
      intro ⟨hbreak, hno⟩
      exact hno ((hc hbreak).trans (List.prefix_append e _))
    rw [List.cons_append, entries, if_neg hinside, ih he]

theorem entries_flatMap {es : List (List Char)}
    (h : ∀ e ∈ es, Indented e ∧ ∀ s, ¬indentation <+: e ++ '\n' :: s) :
    entries (es.flatMap fun e => e ++ ['\n']) = es := by
  induction es with
  | nil => rfl
  | cons e es ih =>
    obtain ⟨⟨he, -⟩, hes⟩ := List.forall_mem_cons.mp h
    have hnext : ¬indentation <+: es.flatMap fun e => e ++ ['\n'] := by
      cases es with
      | nil => decide
      | cons e' es =>
        rw [List.flatMap_cons, List.append_assoc]
        exact (hes e' List.mem_cons_self).2 _
    rw [List.flatMap_cons, List.append_assoc, List.singleton_append,
      entries_append_break he hnext, ih hes]

end BuildWatch.Text
