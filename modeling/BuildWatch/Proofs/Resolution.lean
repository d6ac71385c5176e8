import BuildWatch.Path
import Mathlib.Data.List.Infix

namespace BuildWatch

def Component.ofStep (step : String) : Component := if step = ".." then .parent else .normal step

namespace Path

/-- What is between the slashes, but for empty pieces and `.`, which lead nowhere. -/
def steps (p : Path) : List String :=
  ((segments p.text.toList).filter fun piece => piece ≠ [] ∧ piece ≠ ['.']).map .ofList

/-- Go on from where the names in `place` lead. Above the root there is nothing. -/
def walk (place : List String) (step : String) : List String :=
  if step = ".." then place.dropLast else place ++ [step]

/-- The names on the way from the root to where an absolute path leads. -/
def place (p : Path) : List String := p.steps.foldl walk []

/-- Whether some steps up outnumber the names before them. -/
def climbs (p : Path) : Bool :=
  p.steps.inits.any fun before => before.countP (· ≠ "..") < before.count ".."

structure Grounded (p : Path) : Prop where
  absolute : p.isAbsolute = true
  below : p.climbs = false

instance (p : Path) : Decidable p.Grounded :=
  decidable_of_iff (p.isAbsolute = true ∧ p.climbs = false)
    ⟨fun h => ⟨h.1, h.2⟩, fun h => ⟨h.absolute, h.below⟩⟩

theorem ofStep_injective {a b : String} (h : Component.ofStep a = .ofStep b) : a = b := by
  unfold Component.ofStep at h
  split at h <;> split at h
  · next ha hb => rw [ha, hb]
  · cases h
  · cases h
  · exact Component.normal.inj h

theorem ofStep_ne (step : String) :
    Component.ofStep step ≠ .root ∧ Component.ofStep step ≠ .current := by
  rw [Component.ofStep]
  split <;> exact ⟨nofun, nofun⟩

theorem step?_eq (piece : List Char) :
    step? piece =
      if piece ≠ [] ∧ piece ≠ ['.'] then some (.ofStep (.ofList piece)) else none := by
  have hup : String.ofList ['.', '.'] = ".." := rfl
  unfold step?
  split
  · simp
  · simp
  · simp [Component.ofStep, hup]
  · next h1 h2 h3 =>
    have hne : String.ofList piece ≠ ".." :=
      fun h => h3 (String.ofList_injective (h.trans hup.symm))
    rw [if_pos ⟨h1, h2⟩, Component.ofStep, if_neg hne]

theorem filterMap_step? (pieces : List (List Char)) :
    pieces.filterMap step? =
      ((pieces.filter fun piece => piece ≠ [] ∧ piece ≠ ['.']).map String.ofList).map
        Component.ofStep := by
  induction pieces with
  | nil => rfl
  | cons piece pieces ih =>
    rw [List.filterMap_cons, step?_eq, ih]
    by_cases h : piece ≠ [] ∧ piece ≠ ['.']
    · simp [h]
    · rw [if_neg h, List.filter_cons_of_neg (by simpa using h)]

theorem root_not_mem_steps (steps : List String) : Component.root ∉ steps.map .ofStep := by
  rw [List.mem_map]
  rintro ⟨step, -, hstep⟩
  exact (ofStep_ne step).1 hstep

theorem components_of_absolute {p : Path} (h : p.isAbsolute = true) :
    p.components = .root :: p.steps.map .ofStep := by
  have hhead : (componentsOf p.text.toList).head? = some .root := of_decide_eq_true h
  change componentsOf p.text.toList = .root :: p.steps.map .ofStep
  rw [steps, ← filterMap_step?]
  have hroot := root_not_mem_steps p.steps
  rw [steps, ← filterMap_step?] at hroot
  revert hhead hroot
  generalize p.text.toList = s
  fun_cases componentsOf s with
  | case1 => exact fun _ _ => rfl
  | case2 => nofun
  | case3 => nofun
  | case4 => exact fun hhead hroot => absurd (List.mem_of_head? hhead) hroot

theorem same_iff_of_absolute {p q : Path} (hp : p.isAbsolute = true) (hq : q.isAbsolute = true) :
    p.same q = true ↔ p.steps = q.steps := by
  rw [same, decide_eq_true_iff, components_of_absolute hp, components_of_absolute hq,
    List.cons.injEq, List.map_inj_right fun _ _ => ofStep_injective, eq_self, true_and]

/-- Resolution has the root and the names of the place on its stack, as long as there is always a
name left for a step up to take back. -/
theorem resolveOnto_steps (steps place : List String)
    (h : ∀ before, before <+: steps →
      before.count ".." ≤ place.length + before.countP (· ≠ "..")) :
    resolveOnto ((place.map .normal).reverse ++ [.root]) (steps.map .ofStep) =
      ((steps.foldl walk place).map .normal).reverse ++ [.root] := by
  induction steps generalizing place with
  | nil => rfl
  | cons step steps ih =>
    rw [List.map_cons, List.foldl_cons]
    by_cases hup : step = ".."
    · have hone := h [step] ⟨steps, rfl⟩
      rcases place.eq_nil_or_concat' with rfl | ⟨init, last, rfl⟩
      · simp [hup] at hone
      · have hwalk : walk (init ++ [last]) step = init := by
          rw [walk, if_pos hup, List.dropLast_concat]
        have hstack : (((init ++ [last]).map Component.normal).reverse ++ [Component.root]).tail =
            (init.map .normal).reverse ++ [.root] := by simp
        rw [Component.ofStep, if_pos hup, resolveOnto, hstack, hwalk]
        refine ih init fun before hbefore => ?_
        have hmore := h (step :: before) (List.cons_prefix_cons.mpr ⟨rfl, hbefore⟩)
        simp [hup] at hmore ⊢
        omega
    · have hwalk : walk place step = place ++ [step] := if_neg hup
      have hstack : .normal step :: ((place.map Component.normal).reverse ++ [.root]) =
          ((place ++ [step]).map Component.normal).reverse ++ [.root] := by simp
      rw [Component.ofStep, if_neg hup, resolveOnto, hstack, hwalk]
      · refine ih (place ++ [step]) fun before hbefore => ?_
        have hmore := h (step :: before) (List.cons_prefix_cons.mpr ⟨rfl, hbefore⟩)
        simp [hup] at hmore ⊢
        omega
      · nofun
      · nofun

theorem resolved_of_grounded {p : Path} (h : p.Grounded) :
    p.resolved = .root :: p.place.map .normal := by
  have hbelow : ∀ before, before <+: p.steps →
      before.count ".." ≤ ([] : List String).length + before.countP (· ≠ "..") := by
    intro before hbefore
    have hnot := List.any_eq_false.mp h.below before ((List.mem_inits ..).mpr hbefore)
    rw [decide_eq_true_iff, Nat.not_lt] at hnot
    rwa [List.length_nil, Nat.zero_add]
  have honto := resolveOnto_steps p.steps [] hbelow
  rw [resolved, components_of_absolute h.absolute]
  change (resolveOnto [.root] (p.steps.map .ofStep)).reverse = _
  rw [List.map_nil, List.reverse_nil, List.nil_append] at honto
  rw [honto, List.reverse_append, List.reverse_reverse]
  rfl

example :
    let p : Path := ⟨"/ws/app/..//lib/./x/"⟩
    p.Grounded ∧ p.resolved = [.root, .normal "ws", .normal "lib", .normal "x"] := by
  decide

theorem isUnder_iff_of_grounded {p base : Path} (hp : p.Grounded) (hb : base.Grounded) :
    p.isUnder base = true ↔ base.place <+: p.place := by
  rw [isUnder, List.isPrefixOf_iff_prefix, resolved_of_grounded hp, resolved_of_grounded hb,
    List.prefix_cons_inj, List.prefix_map_iff_of_injective fun _ _ => Component.normal.inj]

theorem foldl_walk_of_names {steps : List String} (h : ".." ∉ steps) (place : List String) :
    steps.foldl walk place = place ++ steps := by
  induction steps generalizing place with
  | nil => exact (List.append_nil place).symm
  | cons step steps ih =>
    obtain ⟨hstep, hsteps⟩ := not_or.mp (mt List.mem_cons.mpr h)
    rw [List.foldl_cons, walk, if_neg (Ne.symm hstep), ih hsteps, List.append_assoc,
      List.singleton_append]

theorem place_of_names {p : Path} (h : ".." ∉ p.steps) : p.place = p.steps :=
  foldl_walk_of_names h []

theorem place_of_up {p base : Path} {dir rest : List String} {last : String}
    (hbase : base.place = dir ++ [last]) (hrest : ".." ∉ rest)
    (hp : p.steps = base.steps ++ ".." :: rest) : p.place = dir ++ rest := by
  have hup : walk base.place ".." = dir := by
    rw [walk, if_pos rfl, hbase, List.dropLast_concat]
  rw [place, hp, List.foldl_append]
  change rest.foldl walk (walk base.place "..") = _
  rw [hup, foldl_walk_of_names hrest]

end Path

end BuildWatch
