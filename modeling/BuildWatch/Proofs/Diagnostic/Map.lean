import BuildWatch.Proofs.Diagnostic.Store
import Mathlib.Algebra.GroupWithZero.Nat
import Mathlib.Data.List.DropRight

namespace BuildWatch

namespace DiagnosticMap

/-- A change to a map. The files that stay are chosen by what their paths denote, and to drain a map
leaves nothing in it. -/
inductive Change where
  | push (file : Path) (diagnostic : Diagnostic)
  | retain (keep : Path → Bool)
    (congr : ∀ {p q : Path}, p.components = q.components → keep p = keep q)
  | drain

namespace Change

def clears (file : Path) : Change → Bool
  | push _ _ => false
  | retain keep _ => !keep file
  | drain => true

/-- What a change adds to a file, with the spelling that it comes under. -/
def adds? (file : Path) : Change → Option (Path × Diagnostic)
  | push spelling diagnostic => if spelling.same file then some (spelling, diagnostic) else none
  | _ => none

end Change

def apply (s : DiagnosticMap) : Change → DiagnosticMap
  | .push file diagnostic => s.push file diagnostic
  | .retain keep _ => s.retain keep
  | .drain => empty

def applyAll (s : DiagnosticMap) (changes : List Change) : DiagnosticMap := changes.foldl apply s

/-- What was added to a file since it was last cleared. -/
def held (changes : List Change) (file : Path) : List (Path × Diagnostic) :=
  (changes.rtakeWhile fun c => !c.clears file).filterMap fun c => c.adds? file

variable (changes : List Change) (c : Change) (file : Path)

theorem applyAll_append (s : DiagnosticMap) :
    s.applyAll (changes ++ [c]) = (s.applyAll changes).apply c := List.foldl_append

theorem held_append : held (changes ++ [c]) file =
    if c.clears file then [] else held changes file ++ (c.adds? file).toList := by
  rw [held, List.rtakeWhile_concat]
  cases c.clears file with
  | true => rfl
  | false =>
    rw [if_pos (by rfl), List.filterMap_append]
    cases h : c.adds? file <;> simp [held, h]

theorem sound_apply {s : DiagnosticMap} (hs : s.Sound) (c : Change) : (s.apply c).Sound := by
  cases c with
  | push file d => exact sound_push hs file d
  | retain keep _ => exact sound_retain hs keep
  | drain => exact sound_empty

theorem sound_applyAll {s : DiagnosticMap} (hs : s.Sound) : (s.applyAll changes).Sound := by
  induction changes generalizing s with
  | nil => exact hs
  | cons c changes ih => exact ih (sound_apply hs c)

theorem find?_applyAll : (empty.applyAll changes).files.find? file =
    (held changes file).head?.map fun first => (first.1, (held changes file).map (·.2)) := by
  induction changes using List.reverseRecOn with
  | nil => rfl
  | append_singleton changes c ih =>
    rw [applyAll_append, held_append]
    cases c with
    | push spelling d =>
      have hsorted := (sound_applyAll changes sound_empty).sorted
      change ((empty.applyAll changes).files.alter spelling _).find? file = _
      simp only [Change.clears, Change.adds?, Path.same, decide_eq_true_eq]
      by_cases h : spelling.components = file.components
      · rw [FileMap.find?_alter_self hsorted h, FileMap.get?, ih, if_pos h]
        cases held changes file <;> simp
      · rw [FileMap.find?_alter h, ih, if_neg h]
        simp
    | retain keep congr =>
      change ((empty.applyAll changes).files.filter keep).find? file = _
      rw [FileMap.find?_filter congr, ih]
      cases h : keep file <;> simp [Change.clears, Change.adds?, h]
    | drain => rfl

theorem get?_applyAll : (empty.applyAll changes).get? file =
    if held changes file = [] then none else some ((held changes file).map (·.2)) := by
  change ((empty.applyAll changes).files.find? file).map (·.2) = _
  rw [find?_applyAll]
  cases held changes file <;> simp

theorem isEmpty_iff {s : DiagnosticMap} (hs : s.Sound) : s.isEmpty = true ↔ s.count = 0 := by
  rw [isEmpty, FileMap.isEmpty, List.isEmpty_iff, count, FileMap.values, List.length_eq_zero_iff,
    List.flatten_eq_nil_iff]
  constructor
  · intro h
    rw [h]
    nofun
  · intro h
    refine List.eq_nil_iff_forall_not_mem.mpr fun e he => hs.full e he ?_
    exact h e.2 (List.mem_map_of_mem he)

/-- What a map holds after any changes. A file has what was pushed for it since the map was drained
or did not keep the file, in that order and whatever the spelling. The files stand in path order,
each once and spelled as it was first, and none is there without a diagnostic. -/
theorem holds_of_changes (changes : List Change) :
    let s := empty.applyAll changes
    s.paths.Pairwise (fun p q => compare p q = .lt) ∧
    s.paths.Pairwise (fun p q => p.same q = false) ∧
    (∀ e ∈ s.toList, e.2 ≠ [] ∧ (held changes e.1).head?.map (·.1) = some e.1) ∧
    s.count = (s.toList.map (·.2.length)).sum ∧
    (s.isEmpty = true ↔ s.count = 0) ∧
    ∀ file, s.contains file = (s.get? file).isSome ∧
      s.get? file =
        if held changes file = [] then none else some ((held changes file).map (·.2)) := by
  intro s
  have hs : s.Sound := sound_applyAll changes sound_empty
  have hordered : s.paths.Pairwise fun p q => compare p q = .lt := List.pairwise_map.mpr hs.sorted
  refine ⟨hordered, ?_, fun e he => ⟨hs.full e he, ?_⟩, ?_, isEmpty_iff hs, fun file => ?_⟩
  · exact hordered.imp fun h => decide_eq_false (Path.components_ne_of_lt h)
  · have hfind := FileMap.find?_of_mem hs.sorted he
    rw [find?_applyAll] at hfind
    obtain ⟨first, hfirst, hentry⟩ := Option.map_eq_some_iff.mp hfind
    rw [hfirst, ← hentry]
    rfl
  · rw [count, FileMap.values, List.length_flatten, List.map_map]
    rfl
  · exact ⟨FileMap.contains_eq_isSome s.files file, get?_applyAll changes file⟩

example :
    let d (message : String) : Diagnostic := ⟨message, .point ⟨0, 0⟩⟩
    let changes : List Change := [.push ⟨"/p/b"⟩ (d "b1"), .push ⟨"/p//a"⟩ (d "a1"),
      .retain (·.startsWith ⟨"/p/a"⟩) fun h => by rw [Path.startsWith, Path.startsWith, h],
      .push ⟨"/p/b/"⟩ (d "b2"), .push ⟨"/p/a/."⟩ (d "a2")]
    (empty.applyAll changes).toList.map (fun e => (e.1.text, e.2.map (·.message))) =
      [("/p//a", ["a1", "a2"]), ("/p/b/", ["b2"])] := by
  decide +kernel

end DiagnosticMap

end BuildWatch
