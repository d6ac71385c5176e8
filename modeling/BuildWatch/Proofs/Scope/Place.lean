import BuildWatch.Proofs.Scope

namespace BuildWatch.Publisher

theorem accepts_of_workspace {scope : Scope} {run : AwaitedRun}
    (hs : scope = .workspace ∨ scope = .document ∧ run.document = none) (file : Path) :
    scope.accepts run.root run.document file = file.isUnder run.root := by
  rcases hs with rfl | ⟨rfl, hnone⟩
  · rfl
  · rw [hnone]
    rfl

theorem prefix_branch_iff {dir rest : List String} {last name : String} :
    dir ++ [last] <+: dir ++ name :: rest ↔ name = last := by
  rw [List.prefix_append_right_inj, List.cons_prefix_cons, eq_comm]
  exact and_iff_left (List.nil_prefix)

variable (p : Publisher) (records : List Record) (run : AwaitedRun)

/-- The workspace scope publishes the files at places below that of the workspace. A path that
leaves the workspace by `..` is out of scope unless it comes back by the name of the workspace, and
so is one to a place next to the workspace, however alike the names are. -/
theorem told_below_root
    (hs : p.settings.scope = .workspace ∨ p.settings.scope = .document ∧ run.document = none)
    (hroot : run.root.Grounded) :
    let published := p.publish records run
    ∀ r ∈ records, r.path.Grounded →
      (r.Told p.isPrimary published.2.1 ↔ run.root.place <+: r.path.place) ∧
      ((∃ file ∈ published.1.published, file.same r.path = true) ↔
        run.root.place <+: r.path.place) ∧
      ∀ dir last, run.root.place = dir ++ [last] → ∀ name rest,
        (".." ∉ name :: rest → r.path.steps = run.root.steps ++ ".." :: name :: rest →
          (r.Told p.isPrimary published.2.1 ↔ name = last)) ∧
        (r.path.place = dir ++ name :: rest →
          (r.Told p.isPrimary published.2.1 ↔ name = last)) := by
  intro published r hr hfile
  obtain ⟨htold, hlisted⟩ := p.selection_of_publish records run
  have hscope : p.settings.scope.accepts run.root run.document r.path = true ↔
      run.root.place <+: r.path.place := by
    rw [accepts_of_workspace hs, Path.isUnder_iff_of_grounded hfile hroot]
  have hbelow := (htold r hr).trans hscope
  refine ⟨hbelow, (hlisted r hr).trans hscope, fun dir last hlast name rest => ?_⟩
  have hbranch : r.path.place = dir ++ name :: rest →
      (r.Told p.isPrimary published.2.1 ↔ name = last) := by
    intro hplace
    rw [hbelow, hlast, hplace]
    exact prefix_branch_iff
  exact ⟨fun hnames hsteps => hbranch (Path.place_of_up hlast hnames hsteps), hbranch⟩

theorem told_below_root_of_four :
    let p := new { Sample.settings with scope := .workspace }
    let run : AwaitedRun := ⟨⟨1⟩, ⟨"/ws/./app/"⟩, none⟩
    let records := ["/ws/app/src/Main.hs", "/ws/app/../app//B.hs", "/ws/app/../lib/Lib.hs",
      "/ws/app2/C.hs"].map Sample.problem
    records.map (fun r => decide (run.root.place <+: r.path.place)) = [true, true, false, false] ∧
      ∀ r ∈ records, r.Told p.isPrimary (p.publish records run).2.1 ↔
        run.root.place <+: r.path.place := by
  intro p run records
  have hroot : run.root.Grounded := by decide
  have hfiles : ∀ r ∈ records, r.path.Grounded := by decide
  refine ⟨by decide, fun r hr => ?_⟩
  exact (told_below_root p records run (.inl rfl) hroot r hr (hfiles r hr)).1

/-- The document scope publishes the file whose path has the same steps as that of the document. If
neither has a `..` in it, these are the two paths to one place. -/
theorem told_of_document {document : Path} (hs : p.settings.scope = .document)
    (hd : run.document = some document) (ha : document.isAbsolute = true) :
    let published := p.publish records run
    ∀ r ∈ records, r.path.isAbsolute = true →
      (r.Told p.isPrimary published.2.1 ↔ r.path.steps = document.steps) ∧
      ((∃ file ∈ published.1.published, file.same r.path = true) ↔
        r.path.steps = document.steps) ∧
      (r.Told p.isPrimary published.2.1 → r.path.place = document.place) ∧
      (".." ∉ r.path.steps → ".." ∉ document.steps →
        (r.Told p.isPrimary published.2.1 ↔ r.path.place = document.place)) := by
  intro published r hr hfile
  obtain ⟨htold, hlisted⟩ := p.selection_of_publish records run
  have hscope : p.settings.scope.accepts run.root run.document r.path = true ↔
      r.path.steps = document.steps := by
    rw [hs, hd]
    exact Path.same_iff_of_absolute hfile ha
  have hsteps := (htold r hr).trans hscope
  refine ⟨hsteps, (hlisted r hr).trans hscope, fun ht => ?_, fun hnames hnames' => ?_⟩
  · rw [Path.place, hsteps.mp ht]
    rfl
  · rw [hsteps, Path.place_of_names hnames, Path.place_of_names hnames']

theorem told_of_document_respelled :
    let p := new { Sample.settings with scope := .document }
    let run : AwaitedRun := ⟨⟨1⟩, ⟨"/w"⟩, some ⟨"/w/./src//A.hs/"⟩⟩
    let records := ["/w/src/A.hs", "/w/src/B.hs"].map Sample.problem
    (Sample.problem "/w/src/A.hs").Told p.isPrimary (p.publish records run).2.1 ∧
      ¬(Sample.problem "/w/src/B.hs").Told p.isPrimary (p.publish records run).2.1 := by
  intro p run records
  have htold : ∀ r ∈ records, r.Told p.isPrimary (p.publish records run).2.1 ↔
      r.path.steps = ["w", "src", "A.hs"] := by
    intro r hr
    have hfile : r.path.isAbsolute = true := by
      revert r
      decide
    exact (told_of_document p records run rfl rfl rfl r hr hfile).1
  exact ⟨(htold _ List.mem_cons_self).mpr rfl,
    fun h => absurd ((htold _ (List.mem_cons_of_mem _ List.mem_cons_self)).mp h) (by decide)⟩

/-- A document that is saved by a path with a `..` in it is not recognized in what the tool reports:
nothing is published, although the two paths lead to one place. -/
theorem untold_of_detour :
    let p := new { Sample.settings with scope := .document }
    let document := (⟨"/w"⟩ : Path).join ⟨"src/../A.hs"⟩
    let r : Record := ⟨"/w/A.hs", 1, 0, "", []⟩
    let ran := p.run (Sample.telling "[[\"/w/A.hs\",1,0]]") ⟨.saved, ⟨"/w"⟩, some document⟩
    document.isAbsolute = true ∧ r.path.isAbsolute = true ∧ document.place = r.path.place ∧
      ran.2.reports = [⟨some ⟨1⟩, .succeeded ⟨1, 0, 0⟩⟩] ∧ ran.1.published = [] ∧
      ¬r.Told p.isPrimary ran.2.edits := by
  refine ⟨by decide, by decide, by decide, rfl, rfl, ?_⟩
  rintro ⟨file, ds, hset, -⟩
  have hnone : Edit.set file ds ∈ ([] : List Edit) := hset
  cases hnone

end BuildWatch.Publisher
