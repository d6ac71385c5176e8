import BuildWatch.Proofs.Glob.Extension
import BuildWatch.Proofs.Spelling
import BuildWatch.Trigger

namespace BuildWatch

def Trigger.Kind.isOn (onSave onOpen : Bool) : Kind → Bool
  | .saved => onSave
  | .opened => onOpen
  | .command => true

def Path.HasExtension (file : Path) (e : Glob.Extension) : Prop :=
  ∃ name ∈ file.fileName?, e.suffix <:+ name.toList

instance (file : Path) (e : Glob.Extension) : Decidable (file.HasExtension e) :=
  inferInstanceAs (Decidable (∃ name ∈ file.fileName?, e.suffix <:+ name.toList))

namespace Glob

/-- A pattern excludes a file by its path as it is written, or by its name. -/
def Excludes (g : Glob) (file : Path) : Prop :=
  g.matches? (Utf8.encodeString file.text) = true ∨
    ∃ name ∈ file.fileName?, g.matches? (Utf8.encodeString name) = true

theorem Extension.hasExtension_of_suffix {e : Extension} {file : Path}
    (h : e.suffix <:+ file.text.toList) : file.HasExtension e := by
  have hslash : '/' ∉ e.suffix := by
    refine List.not_mem_cons_of_ne_of_not_mem (by decide) fun hmem => ?_
    exact e.plain '/' hmem (by decide)
  have hname : ∃ c ∈ e.suffix, c ≠ '.' := by
    obtain ⟨c, hc⟩ := List.exists_mem_of_ne_nil e.text e.ne_nil
    exact ⟨c, List.mem_cons_of_mem '.' hc, fun hdot => e.plain c hc (hdot ▸ by decide)⟩
  exact Path.exists_fileName h hslash hname

theorem Extension.excludes_glob_iff {e : Extension} {file : Path} :
    e.glob.Excludes file ↔ file.HasExtension e := by
  have hnamed : (∃ name ∈ file.fileName?, e.glob.matches? (Utf8.encodeString name) = true) ↔
      file.HasExtension e := by
    simp only [matches?_glob, Path.HasExtension]
  rw [Excludes, matches?_glob, hnamed, or_iff_right_iff_imp]
  exact hasExtension_of_suffix

end Glob

namespace Policy

variable {p q : Policy} {s s' : Settings} {t : Trigger}

theorem map_isMatch_eq_true_iff {name : Option String} :
    (name.map p.isMatch).getD false = true ↔ ∃ text ∈ name, p.isMatch text = true := by
  cases name <;> simp

theorem excludes_iff {file : Path} : p.excludes file = true ↔ ∃ g ∈ p.exclude, g.Excludes file := by
  simp only [excludes, Bool.or_eq_true, map_isMatch_eq_true_iff, isMatch, List.any_eq_true,
    Glob.Excludes]
  constructor
  · rintro (⟨g, hg, htext⟩ | ⟨name, hname, g, hg, hmatch⟩)
    · exact ⟨g, hg, .inl htext⟩
    · exact ⟨g, hg, .inr ⟨name, hname, hmatch⟩⟩
  · rintro ⟨g, hg, htext | ⟨name, hname, hmatch⟩⟩
    · exact .inl ⟨g, hg, htext⟩
    · exact .inr ⟨name, hname, g, hg, hmatch⟩

theorem admits_iff : p.admits t = true ↔ t.kind = .command ∨
    t.kind.isOn p.runOnSave p.runOnOpen = true ∧
      ∀ file ∈ t.document, ∀ g ∈ p.exclude, ¬g.Excludes file := by
  have hdocument : (!(t.document.map p.excludes).getD false) = true ↔
      ∀ file ∈ t.document, ∀ g ∈ p.exclude, ¬g.Excludes file := by
    cases t.document with
    | none => simp
    | some file =>
      have hnone : ¬p.excludes file = true ↔ ¬∃ g ∈ p.exclude, g.Excludes file :=
        not_congr excludes_iff
      simpa using hnone
  rw [admits]
  cases t.kind with
  | command => simp
  | saved => simp only [Bool.and_eq_true, hdocument, reduceCtorEq, false_or, Trigger.Kind.isOn]
  | opened => simp only [Bool.and_eq_true, hdocument, reduceCtorEq, false_or, Trigger.Kind.isOn]

theorem ofSettings_eq_ok_iff : ofSettings s = .ok p ↔
    Glob.parseAll s.exclude = .ok p.exclude ∧
      p.runOnSave = s.runOnSave ∧ p.runOnOpen = s.runOnOpen := by
  rw [ofSettings, map_eq_ok_iff]
  constructor
  · rintro ⟨globs, hglobs, rfl⟩
    exact ⟨hglobs, rfl, rfl⟩
  · rintro ⟨hglobs, hsave, hopen⟩
    refine ⟨p.exclude, hglobs, ?_⟩
    rw [← hsave, ← hopen]

theorem mem_exclude_iff (h : ofSettings s = .ok p) {g : Glob} :
    g ∈ p.exclude ↔ ∃ pattern ∈ s.exclude, Glob.parse pattern = .ok g := by
  obtain ⟨hglobs, -⟩ := ofSettings_eq_ok_iff.mp h
  obtain ⟨hread, -⟩ := Glob.parseAll_eq_ok_iff.mp hglobs
  rw [← List.mem_map, hread, List.mem_map_of_injective fun _ _ => Except.ok.inj]

theorem admits_of_subset (hp : ofSettings s = .ok p) (hq : ofSettings s' = .ok q)
    (hsave : s'.runOnSave = s.runOnSave) (hopen : s'.runOnOpen = s.runOnOpen)
    (h : s.exclude ⊆ s'.exclude) (ht : q.admits t = true) : p.admits t = true := by
  obtain ⟨-, hps, hpo⟩ := ofSettings_eq_ok_iff.mp hp
  obtain ⟨-, hqs, hqo⟩ := ofSettings_eq_ok_iff.mp hq
  refine admits_iff.mpr ((admits_iff.mp ht).imp_right fun ⟨hon, hnone⟩ => ⟨?_, ?_⟩)
  · rwa [hps, hpo, ← hsave, ← hopen, ← hqs, ← hqo]
  · intro file hfile g hg
    obtain ⟨pattern, hpattern, hparse⟩ := (mem_exclude_iff hp).mp hg
    exact hnone file hfile g ((mem_exclude_iff hq).mpr ⟨pattern, h hpattern, hparse⟩)

/-- Patterns of a star and an extension can always be read, and exclude the files with one of the
extensions, whatever directories these lie in. Further patterns exclude no less, and the order of
patterns does not matter, nor does how often there is one. -/
theorem ofSettings_extensions (s : Settings) (es : List Glob.Extension) :
    ∃ p, ofSettings { s with exclude := es.map Glob.Extension.pattern } = .ok p ∧
      (∀ t : Trigger, p.admits t = true ↔ t.kind = .command ∨
        t.kind.isOn s.runOnSave s.runOnOpen = true ∧
          ∀ file ∈ t.document, ∀ e ∈ es, ¬file.HasExtension e) ∧
      ∀ patterns q, ofSettings { s with exclude := patterns } = .ok q →
        es.map Glob.Extension.pattern ⊆ patterns →
          (∀ t, q.admits t = true → p.admits t = true) ∧
            (patterns ⊆ es.map Glob.Extension.pattern → q.admits = p.admits) := by
  have hp : ofSettings { s with exclude := es.map Glob.Extension.pattern } =
      .ok ⟨s.runOnSave, s.runOnOpen, es.map Glob.Extension.glob⟩ :=
    ofSettings_eq_ok_iff.mpr ⟨Glob.Extension.parseAll_map es, rfl, rfl⟩
  refine ⟨_, hp, fun t => ?_, fun patterns q hq hmore => ?_⟩
  · rw [admits_iff]
    simp only [List.forall_mem_map, Glob.Extension.excludes_glob_iff]
  · have hless := fun t => admits_of_subset (t := t) hp hq rfl rfl hmore
    refine ⟨hless, fun hsame => funext fun t => Bool.eq_iff_iff.mpr ⟨hless t, ?_⟩⟩
    exact admits_of_subset hq hp rfl rfl hsame

theorem ofSettings_extensions_of_two :
    ∃ p, ofSettings { exclude := ["*.yaml", "*.cabal"] } = .ok p ∧
      p.admits ⟨.saved, ⟨"/p"⟩, some ⟨"/p/a.yaml/Main.hs"⟩⟩ = true ∧
      p.admits ⟨.saved, ⟨"/p"⟩, some ⟨"/p/a.yaml/b.cabal/./"⟩⟩ = false ∧
      p.admits ⟨.opened, ⟨"/p"⟩, some ⟨"/p/a.yaml/.."⟩⟩ = true ∧
      p.admits ⟨.command, ⟨"/p"⟩, some ⟨"/p/a.yaml"⟩⟩ = true ∧
      (∃ q, ofSettings { exclude := ["*.cabal", "/p/gen/**", "*.yaml"] } = .ok q ∧
        ∀ t, q.admits t = true → p.admits t = true) ∧
      ∃ q, ofSettings { exclude := ["*.cabal", "*.yaml", "*.cabal"] } = .ok q ∧
        q.admits = p.admits := by
  let yaml : Glob.Extension := ⟨"yaml".toList, by decide, by simp [Glob.reserved]⟩
  let cabal : Glob.Extension := ⟨"cabal".toList, by decide, by simp [Glob.reserved]⟩
  have hpatterns : [yaml, cabal].map Glob.Extension.pattern = ["*.yaml", "*.cabal"] := by decide
  obtain ⟨p, hp, hadmits, hmore⟩ := ofSettings_extensions {} [yaml, cabal]
  rw [hpatterns] at hp hmore
  refine ⟨p, hp, (hadmits _).mpr (by decide), ?_, (hadmits _).mpr (by decide),
    (hadmits _).mpr (.inl rfl), ?_, ?_⟩
  · exact Bool.eq_false_iff.mpr fun h => absurd ((hadmits _).mp h) (by decide)
  · have hq : ∃ q, ofSettings { exclude := ["*.cabal", "/p/gen/**", "*.yaml"] } = .ok q := ⟨_, rfl⟩
    obtain ⟨q, hq⟩ := hq
    exact ⟨q, hq, (hmore _ q hq (by decide)).1⟩
  · have hq : ∃ q, ofSettings { exclude := ["*.cabal", "*.yaml", "*.cabal"] } = .ok q := ⟨_, rfl⟩
    obtain ⟨q, hq⟩ := hq
    exact ⟨q, hq, (hmore _ q hq (by decide)).2 (by decide)⟩

end Policy

end BuildWatch
