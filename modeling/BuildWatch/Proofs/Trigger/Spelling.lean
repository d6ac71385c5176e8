import BuildWatch.Proofs.Trigger

namespace BuildWatch

structure Trigger.Same (t u : Trigger) : Prop where
  kind : t.kind = u.kind
  root : t.root.components = u.root.components
  document : t.document.map Path.components = u.document.map Path.components

theorem Path.fileName?_congr {file other : Path} (h : file.components = other.components) :
    file.fileName? = other.fileName? := by
  rw [fileName?, fileName?, h]

namespace Glob

def ByName (g : Glob) : Prop :=
  ∀ file : Path, g.matches? (Utf8.encodeString file.text) = true →
    ∃ name ∈ file.fileName?, g.matches? (Utf8.encodeString name) = true

theorem Extension.byName_glob (e : Extension) : e.glob.ByName := by
  intro file h
  obtain ⟨name, hname, hsuffix⟩ := hasExtension_of_suffix (matches?_glob.mp h)
  exact ⟨name, hname, matches?_glob.mpr hsuffix⟩

end Glob

namespace Policy

variable {p : Policy} {t u : Trigger}

theorem exists_name_of_byName (h : ∀ g ∈ p.exclude, g.ByName) {file : Path}
    (hfile : p.isMatch file.text = true) : ∃ name ∈ file.fileName?, p.isMatch name = true := by
  obtain ⟨g, hg, hmatch⟩ := List.any_eq_true.mp hfile
  obtain ⟨name, hname, hmatch⟩ := h g hg file hmatch
  exact ⟨name, hname, List.any_eq_true.mpr ⟨g, hg, hmatch⟩⟩

theorem excludes_eq_iff {file other : Path} (h : file.components = other.components) :
    p.excludes file = p.excludes other ↔
      (∃ name ∈ file.fileName?, p.isMatch name = true) ∨
        p.isMatch file.text = p.isMatch other.text := by
  rw [← map_isMatch_eq_true_iff, excludes, excludes, Path.fileName?_congr h]
  cases (other.fileName?.map p.isMatch).getD false <;> simp

theorem admits_eq_iff (h : t.Same u) : p.admits t = p.admits u ↔
    t.kind = .command ∨ t.kind.isOn p.runOnSave p.runOnOpen = false ∨
      ∀ file ∈ t.document, ∀ other ∈ u.document, p.excludes file = p.excludes other := by
  have hdocument : (t.document.map p.excludes).getD false = (u.document.map p.excludes).getD false ↔
      ∀ file ∈ t.document, ∀ other ∈ u.document, p.excludes file = p.excludes other := by
    have hboth := h.document
    cases ht : t.document with
    | none =>
      rw [ht, Option.map_none, eq_comm, Option.map_eq_none_iff] at hboth
      simp [hboth]
    | some file =>
      cases hu : u.document with
      | none => simp [ht, hu] at hboth
      | some other => simp
  rw [admits, admits, ← h.kind, ← hdocument]
  cases t.kind with
  | command => simp
  | saved => cases p.runOnSave <;> simp [Trigger.Kind.isOn]
  | opened => cases p.runOnOpen <;> simp [Trigger.Kind.isOn]

/-- Of two triggers that are the same one may be admitted and the other not only if neither is
excluded by the name of its document, and a pattern matches one spelling of its path alone. This
cannot be if both paths are written without pieces that vanish, or if the patterns match no path but
by its name. -/
theorem admits_respelled (p : Policy) {t u : Trigger} (h : t.Same u) :
    (p.admits t = p.admits u ↔
      t.kind = .command ∨ t.kind.isOn p.runOnSave p.runOnOpen = false ∨
        ∀ file ∈ t.document, ∀ other ∈ u.document,
          (∃ name ∈ file.fileName?, p.isMatch name = true) ∨
            p.isMatch file.text = p.isMatch other.text) ∧
    ((∀ file ∈ t.document, file.Neat) → (∀ other ∈ u.document, other.Neat) →
      p.admits t = p.admits u) ∧
    ((∀ g ∈ p.exclude, g.ByName) → p.admits t = p.admits u) := by
  have hcomponents : ∀ file ∈ t.document, ∀ other ∈ u.document,
      file.components = other.components := by
    intro file hfile other hother
    have hboth := h.document
    rw [hfile, hother] at hboth
    exact Option.some.inj hboth
  refine ⟨?_, fun ht hu => ?_, fun hnames => ?_⟩
  · rw [admits_eq_iff h]
    refine or_congr_right (or_congr_right ?_)
    exact forall₄_congr fun file hfile other hother =>
      excludes_eq_iff (hcomponents file hfile other hother)
  · refine (admits_eq_iff h).mpr (.inr (.inr fun file hfile other hother => ?_))
    have hsame := hcomponents file hfile other hother
    refine (excludes_eq_iff hsame).mpr (.inr ?_)
    rw [Path.text_eq_of_neat (ht file hfile) (hu other hother) hsame]
  · refine (admits_eq_iff h).mpr (.inr (.inr fun file hfile other hother => ?_))
    have hsame := hcomponents file hfile other hother
    refine (excludes_eq_iff hsame).mpr (or_iff_not_imp_left.mpr fun hname => ?_)
    have hfile : p.isMatch file.text = false :=
      Bool.eq_false_iff.mpr fun hmatch => hname (exists_name_of_byName hnames hmatch)
    have hother : p.isMatch other.text = false := by
      rw [Path.fileName?_congr hsame] at hname
      exact Bool.eq_false_iff.mpr fun hmatch => hname (exists_name_of_byName hnames hmatch)
    rw [hfile, hother]

theorem admits_respelled_of_names :
    let t : Trigger := ⟨.saved, ⟨"/p"⟩, some ⟨"/p/gen/A.yaml"⟩⟩
    let u : Trigger := ⟨.saved, ⟨"/p/."⟩, some ⟨"/p/./gen//A.yaml/"⟩⟩
    let w : Trigger := ⟨.saved, ⟨"//p/"⟩, some ⟨"/p/gen/A.yaml"⟩⟩
    t.Same u ∧ t.Same w ∧
    (∃ p, ofSettings { exclude := ["/p/gen/**", "*.yaml"] } = .ok p ∧
      p.admits t = p.admits u ∧ p.admits t = p.admits w) ∧
    ∃ p, ofSettings { exclude := ["*.yaml"] } = .ok p ∧ p.admits t = p.admits u := by
  intro t u w
  have hu : t.Same u := ⟨rfl, by decide +kernel, by decide +kernel⟩
  have hw : t.Same w := ⟨rfl, by decide +kernel, by decide +kernel⟩
  refine ⟨hu, hw, ?_, ?_⟩
  · have hread : (ofSettings { exclude := ["/p/gen/**", "*.yaml"] }).map (isMatch · "A.yaml") =
        .ok true := by decide +kernel
    obtain ⟨p, hp, hname⟩ := map_eq_ok_iff.mp hread
    refine ⟨p, hp, (admits_respelled p hu).1.mpr (.inr (.inr fun file hfile _ _ => .inl ?_)),
      (admits_respelled p hw).2.1 (by decide +kernel) (by decide +kernel)⟩
    obtain rfl := Option.some.inj hfile
    exact ⟨"A.yaml", by decide +kernel, hname⟩
  · let yaml : Glob.Extension := ⟨"yaml".toList, by decide, by simp [Glob.reserved]⟩
    have hpattern : yaml.pattern = "*.yaml" := by decide
    have hp : ofSettings { exclude := ["*.yaml"] } = .ok ⟨true, true, [yaml.glob]⟩ :=
      ofSettings_eq_ok_iff.mpr ⟨hpattern ▸ Glob.Extension.parseAll_map [yaml], rfl, rfl⟩
    refine ⟨_, hp, (admits_respelled _ hu).2.2 fun g hg => ?_⟩
    rw [List.mem_singleton.mp hg]
    exact yaml.byName_glob

/-- A document that is excluded by its path comes through when the path is written another way. -/
theorem admits_of_other_spelling :
    let t : Trigger := ⟨.saved, ⟨"/p"⟩, some ⟨"/p/gen/A.hs"⟩⟩
    let u : Trigger := ⟨.saved, ⟨"/p"⟩, some ⟨"/p/./gen/A.hs"⟩⟩
    t.Same u ∧ ∃ p, ofSettings { exclude := ["/p/gen/**"] } = .ok p ∧
      p.admits t = false ∧ p.admits u = true := by
  intro t u
  have hread : (ofSettings { exclude := ["/p/gen/**"] }).map (fun p => (p.admits t, p.admits u)) =
      .ok (false, true) := by decide +kernel
  obtain ⟨p, hp, hanswers⟩ := map_eq_ok_iff.mp hread
  obtain ⟨ht, hu⟩ := Prod.mk.inj hanswers
  exact ⟨⟨rfl, rfl, by decide +kernel⟩, p, hp, ht, hu⟩

end Policy

end BuildWatch
