import BuildWatch.Proofs.Joining
import BuildWatch.Proofs.Sample

namespace BuildWatch.Path

def ofComponents (cs : List Component) : Path := cs.foldl (fun p c => p.join ⟨c.text⟩) ⟨""⟩

def normalized (p : Path) : Path := ofComponents p.resolved

structure IsName (name : String) : Prop where
  whole : '/' ∉ name.toList
  visible : name.toList ≠ [] ∧ name.toList ≠ ['.']
  down : name ≠ ".."

/-- Names one after the other, with the root in front of them or not. -/
inductive Settled : List Component → Prop where
  | empty : Settled []
  | root : Settled [.root]
  | down {cs : List Component} {name : String} (hcs : Settled cs) (hname : IsName name) :
    Settled (cs ++ [.normal name])

variable {p : Path} {s piece : List Char} {cs stack : List Component} {name : String}

section Names

theorem noSlash_of_mem_segments (h : piece ∈ segments s) : '/' ∉ piece := by
  induction s generalizing piece with
  | nil =>
    rw [List.mem_singleton.mp h]
    exact List.not_mem_nil
  | cons c s ih =>
    by_cases hc : c = '/'
    · rw [segments, if_pos hc] at h
      rcases List.mem_cons.mp h with rfl | h
      · exact List.not_mem_nil
      · exact ih h
    · obtain ⟨first, rest, hpieces⟩ := List.exists_cons_of_ne_nil (segments_ne_nil s)
      rw [segments_of_ne hc, hpieces, List.modifyHead_cons] at h
      rw [hpieces] at ih
      rcases List.mem_cons.mp h with rfl | h
      · exact fun hmem => (List.mem_cons.mp hmem).elim (Ne.symm hc) (ih List.mem_cons_self)
      · exact ih (List.mem_cons_of_mem _ h)

theorem isName_of_ofStep (hpiece : piece ≠ [] ∧ piece ≠ ['.']) (hslash : '/' ∉ piece)
    (h : Component.ofStep (.ofList piece) = .normal name) : IsName name := by
  rw [Component.ofStep] at h
  split at h
  · cases h
  · next hup =>
    obtain rfl := Component.normal.inj h
    refine ⟨?_, ?_, hup⟩
    · rwa [String.toList_ofList]
    · rwa [String.toList_ofList]

theorem isName_of_mem_filterMap {pieces : List (List Char)} (hslash : ∀ piece ∈ pieces, '/' ∉ piece)
    (h : .normal name ∈ pieces.filterMap step?) : IsName name := by
  obtain ⟨piece, hpiece, hstep⟩ := List.mem_filterMap.mp h
  rw [step?_eq] at hstep
  split at hstep
  · next hvisible => exact isName_of_ofStep hvisible (hslash piece hpiece) (Option.some.inj hstep)
  · cases hstep

theorem isName_of_front (hslash : '/' ∉ piece) (h : front piece = .normal name) : IsName name := by
  have hvisible : piece ≠ [] ∧ piece ≠ ['.'] := by
    constructor
    · rintro rfl
      cases h
    · rintro rfl
      cases h
  rw [front, if_neg hvisible.1, if_neg hvisible.2] at h
  exact isName_of_ofStep hvisible hslash h

theorem components_of_name (h : IsName name) : (⟨name⟩ : Path).components = [.normal name] := by
  have hcomponents := componentsOf_eq h.visible.1 (segments_of_noSlash h.whole)
  rw [front, if_neg h.visible.1, if_neg h.visible.2, String.ofList_toList, Component.ofStep,
    if_neg h.down] at hcomponents
  exact hcomponents

end Names

section Resolving

theorem Settled.dropLast (h : Settled cs) : Settled cs.dropLast := by
  cases h with
  | empty => exact .empty
  | root => exact .empty
  | down hcs _ => rwa [List.dropLast_concat]

theorem Settled.plain (h : Settled cs) : ∀ c ∈ cs, c ≠ .current ∧ c ≠ .parent := by
  induction h with
  | empty => nofun
  | root => exact List.forall_mem_singleton.mpr ⟨nofun, nofun⟩
  | down _ _ ih =>
    exact List.forall_mem_append.mpr ⟨ih, List.forall_mem_singleton.mpr ⟨nofun, nofun⟩⟩

/-- The stack holds names, on top of the root if that was there. -/
theorem settled_resolveOnto (hstack : Settled stack.reverse) (hroot : .root ∉ cs)
    (hnames : ∀ name, .normal name ∈ cs → IsName name) : Settled (resolveOnto stack cs).reverse := by
  induction cs generalizing stack with
  | nil => exact hstack
  | cons c cs ih =>
    have hroot' : .root ∉ cs := fun h => hroot (List.mem_cons_of_mem c h)
    have hnames' : ∀ name, .normal name ∈ cs → IsName name :=
      fun name h => hnames name (List.mem_cons_of_mem c h)
    cases c with
    | root => exact absurd List.mem_cons_self hroot
    | current => exact ih hstack hroot' hnames'
    | parent =>
      refine ih ?_ hroot' hnames'
      rw [← List.dropLast_reverse]
      exact hstack.dropLast
    | normal name =>
      refine ih ?_ hroot' hnames'
      rw [List.reverse_cons]
      exact hstack.down (hnames name List.mem_cons_self)

theorem settled_resolved (p : Path) : Settled p.resolved := by
  by_cases htext : p.text.toList = []
  · rw [resolved, components_eq_nil_iff.mpr htext]
    exact .empty
  · obtain ⟨first, rest, hpieces, hcomponents⟩ := exists_components htext
    have hslash : ∀ piece ∈ first :: rest, '/' ∉ piece := by
      intro piece hpiece
      rw [← hpieces] at hpiece
      exact noSlash_of_mem_segments hpiece
    obtain ⟨hfirst, hrest⟩ := List.forall_mem_cons.mp hslash
    have hroot : .root ∉ rest.filterMap step? := by
      rw [filterMap_step?]
      exact root_not_mem_steps _
    have hnames : ∀ name, .normal name ∈ rest.filterMap step? → IsName name :=
      fun name => isName_of_mem_filterMap hrest
    rw [resolved, hcomponents]
    by_cases hfront : front first = .root
    · rw [hfront]
      have honto : Settled (resolveOnto [.root] (rest.filterMap step?)).reverse :=
        settled_resolveOnto .root hroot hnames
      exact honto
    · refine settled_resolveOnto .empty (List.not_mem_cons_of_ne_of_not_mem (Ne.symm hfront) hroot) ?_
      intro name hname
      rcases List.mem_cons.mp hname with hname | hname
      · exact isName_of_front hfirst hname.symm
      · exact hnames name hname

theorem resolveOnto_append (stack cs ds : List Component) :
    resolveOnto stack (cs ++ ds) = resolveOnto (resolveOnto stack cs) ds := by
  induction cs generalizing stack with
  | nil => rfl
  | cons c cs ih => cases c <;> exact ih _

theorem reverse_resolveOnto_of_settled (h : Settled cs) : (resolveOnto [] cs).reverse = cs := by
  induction h with
  | empty => rfl
  | root => rfl
  | @down cs name _ _ ih =>
    have hdown : resolveOnto [] (cs ++ [.normal name]) = .normal name :: resolveOnto [] cs :=
      resolveOnto_append [] cs [.normal name]
    rw [hdown, List.reverse_cons, ih]

end Resolving

section Spelling

theorem components_ofComponents (h : Settled cs) : (ofComponents cs).components = cs := by
  induction h with
  | empty => rfl
  | root => rfl
  | @down cs name _ hname ih =>
    have hjoin : ofComponents (cs ++ [.normal name]) = (ofComponents cs).join ⟨name⟩ :=
      List.foldl_append
    have hcomponents := components_of_name hname
    rw [hjoin]
    by_cases htext : (ofComponents cs).text = ""
    · have hnil : cs = [] := by
        rw [← ih, components_eq_nil_iff, htext]
        rfl
      rw [join_of_text_eq htext, hcomponents, hnil]
      rfl
    · have hrelative : (⟨name⟩ : Path).isAbsolute = false := by
        rw [isAbsolute, hcomponents]
        rfl
      rw [components_join htext hrelative, ih, hcomponents]
      rfl

theorem components_normalized (p : Path) : p.normalized.components = p.resolved :=
  components_ofComponents (settled_resolved p)

theorem normalized_normalized (p : Path) : p.normalized.normalized = p.normalized := by
  have hresolved : p.normalized.resolved = p.resolved := by
    rw [resolved, components_normalized, reverse_resolveOnto_of_settled (settled_resolved p)]
  rw [normalized, hresolved]
  rfl

theorem isUnder_eq_startsWith (p base : Path) :
    p.isUnder base = p.normalized.startsWith base.normalized := by
  rw [isUnder, startsWith, components_normalized, components_normalized]

end Spelling

section Climbing

theorem resolveOnto_names (steps place : List String) :
    resolveOnto (place.map .normal).reverse (steps.map .ofStep) =
      ((steps.foldl walk place).map .normal).reverse := by
  induction steps generalizing place with
  | nil => rfl
  | cons step steps ih =>
    rw [List.map_cons, List.foldl_cons, walk, Component.ofStep]
    by_cases hup : step = ".."
    · rw [if_pos hup, if_pos hup, ← ih, List.map_dropLast, ← List.tail_reverse]
      rfl
    · rw [if_neg hup, if_neg hup, ← ih, List.map_append, List.reverse_append]
      rfl

/-- The first step above the root takes it away, and there is none from then on. -/
theorem resolveOnto_of_climb (steps place : List String)
    (h : ∃ before, before <+: steps ∧
      place.length + before.countP (· ≠ "..") < before.count "..") :
    resolveOnto ((place.map .normal).reverse ++ [.root]) (steps.map .ofStep) =
      ((steps.foldl walk place).map .normal).reverse := by
  induction steps generalizing place with
  | nil =>
    obtain ⟨before, hbefore, hclimb⟩ := h
    rw [List.prefix_nil.mp hbefore] at hclimb
    exact absurd hclimb (Nat.not_lt_zero _)
  | cons step steps ih =>
    obtain ⟨before, hbefore, hclimb⟩ := h
    cases before with
    | nil => exact absurd hclimb (Nat.not_lt_zero _)
    | cons first before =>
      obtain ⟨rfl, hrest⟩ := List.cons_prefix_cons.mp hbefore
      rw [List.map_cons, List.foldl_cons]
      by_cases hup : first = ".."
      · rw [Component.ofStep, if_pos hup, resolveOnto, walk, if_pos hup]
        rcases place.eq_nil_or_concat' with rfl | ⟨init, last, rfl⟩
        · exact resolveOnto_names steps []
        · have hstack : (((init ++ [last]).map Component.normal).reverse ++ [Component.root]).tail =
              (init.map .normal).reverse ++ [.root] := by simp
          rw [hstack, List.dropLast_concat]
          refine ih init ⟨before, hrest, ?_⟩
          simp [hup] at hclimb ⊢
          omega
      · have hstack : .normal first :: ((place.map Component.normal).reverse ++ [.root]) =
            ((place ++ [first]).map Component.normal).reverse ++ [.root] := by simp
        rw [Component.ofStep, if_neg hup, walk, if_neg hup]
        change resolveOnto (.normal first :: (_ ++ [Component.root])) _ = _
        rw [hstack]
        refine ih (place ++ [first]) ⟨before, hrest, ?_⟩
        simp [hup] at hclimb ⊢
        omega

theorem resolved_of_absolute (h : p.isAbsolute = true) :
    p.resolved = (if p.climbs then [] else [.root]) ++ p.place.map .normal := by
  cases hclimbs : p.climbs with
  | false => exact resolved_of_grounded ⟨h, hclimbs⟩
  | true =>
    obtain ⟨before, hbefore, hclimb⟩ := List.any_eq_true.mp hclimbs
    have honto := resolveOnto_of_climb p.steps []
      ⟨before, (List.mem_inits ..).mp hbefore, by simpa using hclimb⟩
    rw [resolved, components_of_absolute h]
    change (resolveOnto [.root] (p.steps.map .ofStep)).reverse = _
    rw [List.map_nil, List.reverse_nil, List.nil_append] at honto
    rw [honto, List.reverse_reverse]
    rfl

theorem root_not_mem_place (place : List String) : Component.root ∉ place.map .normal := by
  rw [List.mem_map]
  rintro ⟨name, -, hname⟩
  cases hname

theorem prefix_map_normal_iff {names place : List String} :
    names.map Component.normal <+: place.map .normal ↔ names <+: place :=
  List.prefix_map_iff_of_injective fun _ _ => Component.normal.inj

theorem isUnder_iff_of_absolute {base : Path} (hp : p.isAbsolute = true)
    (hb : base.isAbsolute = true) :
    p.isUnder base = true ↔ base.place <+: p.place ∧
      (p.climbs = base.climbs ∨ base.climbs = true ∧ base.place = []) := by
  rw [isUnder, List.isPrefixOf_iff_prefix, resolved_of_absolute hp, resolved_of_absolute hb]
  cases hpath : p.climbs <;> cases hbase : base.climbs
  · simp [prefix_map_normal_iff]
  · cases base.place <;> simp
  · refine iff_of_false (fun h => ?_) (by simp)
    exact root_not_mem_place p.place (h.subset List.mem_cons_self)
  · simp [prefix_map_normal_iff]

/-- What is left of an absolute path when it is resolved: the names of the place that it leads to,
without `.` and `..`, and to resolve it once more changes nothing. It is absolute itself, and so
this very place, exactly if no step leads above the root. Else the root is lost, and the path is
not found in the tree of another one that it leads to. -/
theorem normalized_of_absolute {p : Path} (h : p.isAbsolute = true) :
    let q := p.normalized
    q.components = (if p.climbs then [] else [.root]) ++ p.place.map .normal ∧
    (∀ c ∈ q.components, c ≠ .current ∧ c ≠ .parent) ∧
    q.normalized = q ∧
    (q.isAbsolute = true ↔ p.climbs = false) ∧
    (q.components = .root :: p.place.map .normal ↔ p.climbs = false) ∧
    ∀ base : Path, base.isAbsolute = true →
      (q.startsWith base.normalized = true ↔ base.place <+: p.place ∧
        (p.climbs = base.climbs ∨ base.climbs = true ∧ base.place = [])) := by
  intro q
  have hq : q.components = (if p.climbs then [] else [.root]) ++ p.place.map .normal :=
    (components_normalized p).trans (resolved_of_absolute h)
  have hhead : q.components.head? = some .root ↔ p.climbs = false := by
    rw [hq]
    cases p.climbs with
    | false => simp
    | true =>
      refine iff_of_false (fun hroot => ?_) nofun
      exact root_not_mem_place p.place (List.mem_of_head? hroot)
  refine ⟨hq, ?_, normalized_normalized p, ?_, ?_, fun base hb => ?_⟩
  · rw [components_normalized]
    exact (settled_resolved p).plain
  · rw [isAbsolute, decide_eq_true_iff]
    exact hhead
  · refine ⟨fun hroot => hhead.mp ?_, fun hclimbs => ?_⟩
    · rw [hroot]
      rfl
    · rw [hq, hclimbs]
      rfl
  · rw [← isUnder_eq_startsWith]
    exact isUnder_iff_of_absolute h hb

theorem normalized_of_absolute_climbing :
    let p : Path := ⟨"/a/../../ws/./lib/../A.hs"⟩
    let base : Path := ⟨"/../ws"⟩
    p.isAbsolute = true ∧ base.isAbsolute = true ∧ p.climbs = true ∧
      p.normalized.components = [.normal "ws", .normal "A.hs"] ∧ p.normalized.isAbsolute = false ∧
      p.normalized.startsWith base.normalized = true := by
  intro p base
  have hp : p.isAbsolute = true := by decide
  have hb : base.isAbsolute = true := by decide
  obtain ⟨hcomponents, -, -, habsolute, -, hunder⟩ := normalized_of_absolute hp
  refine ⟨hp, hb, by decide, hcomponents.trans (by decide), ?_,
    (hunder base hb).mpr (by decide)⟩
  exact Bool.eq_false_iff.mpr (habsolute.not.mpr (by decide))

/-- A step above the root leads to the root, but a file that is reported by such a path is not found
in the workspace that it is in: its path is no longer absolute when it is resolved, and nothing is
published. -/
theorem unpublished_of_climb :
    let root : Path := ⟨"/ws"⟩
    let p : Path := ⟨"/../ws/A.hs"⟩
    let ran := (Publisher.new { Sample.settings with scope := .workspace }).run
      (Sample.telling "[[\"/../ws/A.hs\",1,0]]") ⟨.command, root, none⟩
    p.isAbsolute = true ∧ p.place = ["ws", "A.hs"] ∧ root.place <+: p.place ∧
      p.normalized.text = "ws/A.hs" ∧ p.normalized.isAbsolute = false ∧
      p.isUnder root = false ∧ ran.1.published = [] ∧
      ran.2.reports = [⟨some ⟨1⟩, .succeeded ⟨1, 0, 0⟩⟩] := by
  exact ⟨by decide, by decide, by decide, by decide, by decide, by decide, rfl, rfl⟩

end Climbing

end BuildWatch.Path
