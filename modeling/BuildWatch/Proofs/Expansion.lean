import BuildWatch.Expansion
import BuildWatch.Proofs.Text.Cut
import Mathlib.Data.List.Infix

namespace BuildWatch.Expansion

def opening : List Char := ['$', '\x7b']

def reference (name : List Char) : List Char := opening ++ name ++ ['\x7d']

def Plain (s : List Char) : Prop := ¬opening <:+: s

/-- None of the references that begin in the text is closed. -/
def Inert (s : List Char) : Prop := ∀ a b, s = a ++ opening ++ b → '\x7d' ∉ b

/-- The value of a variable as it is inserted. One without a name or a value counts as empty. -/
def value (e : Environment) (name : String) : String :=
  if name = "" then "" else (e.get? name).getD ""

/-- A text that is cut at its closed references: their names, each with the plain text before it,
and what is left after the last of them. -/
inductive Cut : List Char → List (List Char × List Char) → List Char → Prop where
  | rest {s : List Char} : Inert s → Cut s [] s
  | closed {a name s rest : List Char} {references : List (List Char × List Char)} :
    Plain a → '\x7d' ∉ name → Cut s references rest →
      Cut (a ++ reference name ++ s) ((a, name) :: references) rest

/-- How a function on texts treats references: those that are closed are replaced, the one in front
first, and what comes after it is treated by itself. Where there are none, nothing is changed. -/
structure Replaces (e : Environment) (f : String → String) : Prop where
  closed : ∀ a name b : String, Plain a.toList → '\x7d' ∉ name.toList →
    f (a ++ "$\x7b" ++ name ++ "\x7d" ++ b) = a ++ value e name ++ f b
  inert : ∀ s : String, Inert s.toList → f s = s

variable {e : Environment} {a b name s t rest : List Char} {c : Char}
  {references : List (List Char × List Char)}

section Reading

theorem opening_prefix_cons : opening <+: c :: s ↔ c = '$' ∧ s.head? = some '\x7b' := by
  rw [opening, List.cons_prefix_cons, eq_comm]
  refine and_congr_right fun _ => ?_
  cases s with
  | nil => simp
  | cons d s => simp [List.cons_prefix_cons, eq_comm]

theorem plain_cons : Plain (c :: s) ↔ ¬opening <+: c :: s ∧ Plain s := by
  rw [Plain, List.infix_cons_iff, not_or]
  rfl

theorem Inert.of_cons (h : Inert (c :: s)) : Inert s :=
  fun a b hs => h (c :: a) b (congrArg (c :: ·) hs)

theorem Inert.cons (hc : ¬opening <+: c :: s) (h : Inert s) : Inert (c :: s) := by
  intro a b hs
  cases a with
  | nil => exact absurd (hs ▸ List.prefix_append opening b) hc
  | cons d a => exact h a b (List.cons.inj hs).2

theorem inert_of_not_mem (h : '\x7d' ∉ s) : Inert s :=
  fun _ _ hs hb => h (hs ▸ List.mem_append_right _ hb)

theorem not_inert (a name s : List Char) : ¬Inert (a ++ reference name ++ s) := by
  intro h
  refine h a (name ++ '\x7d' :: s) ?_ (List.mem_append_right _ List.mem_cons_self)
  simp [reference]

theorem plain_append_inj (ha : Plain a) (hb : Plain b)
    (h : a ++ opening ++ s = b ++ opening ++ t) : a = b ∧ s = t := by
  -- an opening that came earlier in one text would lie in the plain text of the other, or overlap
  -- with its opening, and no opening overlaps with another
  have hle : ∀ {a b s t : List Char}, Plain b → a ++ opening ++ s = b ++ opening ++ t →
      a.length < b.length → False := by
    intro a b s t hb h hlt
    rw [List.append_assoc, List.append_assoc] at h
    obtain ⟨d, rfl, hd⟩ := (List.append_eq_append_iff.mp h).resolve_right fun ⟨d, hd, _⟩ => by
      rw [hd, List.length_append] at hlt
      omega
    rw [List.length_append] at hlt
    match d with
    | [] => simp at hlt
    | [x] => simp [opening] at hd
    | x :: y :: d =>
      simp only [opening, List.cons_append, List.nil_append, List.cons.injEq] at hd
      obtain ⟨rfl, rfl, -⟩ := hd
      exact hb ⟨a, d, by simp [opening]⟩
  have hlength : a.length = b.length :=
    Nat.le_antisymm (Nat.le_of_not_lt fun hlt => hle ha h.symm hlt)
      (Nat.le_of_not_lt fun hlt => hle hb h hlt)
  rw [List.append_assoc, List.append_assoc] at h
  obtain ⟨hab, hst⟩ := List.append_inj h hlength
  exact ⟨hab, List.append_cancel_left hst⟩

theorem Cut.cons (hc : ¬opening <+: c :: s) (h : Cut s references rest) :
    ∃ references rest, Cut (c :: s) references rest := by
  cases h with
  | rest hs => exact ⟨_, _, .rest (hs.cons hc)⟩
  | @closed a name s _ _ ha hname hs =>
    refine ⟨_, _, .closed (a := c :: a) (plain_cons.mpr ⟨fun ho => hc ?_, ha⟩) hname hs⟩
    have hfront : c :: a <+: c :: (a ++ reference name ++ s) := by simp
    exact ho.trans hfront

theorem exists_cut (s : List Char) : ∃ references rest, Cut s references rest := by
  -- on the length, since a reference is skipped as a whole
  induction hn : s.length using Nat.strongRecOn generalizing s with
  | _ n ih =>
    cases s with
    | nil => exact ⟨[], [], .rest fun a b h => by simp [opening] at h⟩
    | cons c s =>
      by_cases hc : opening <+: c :: s
      · obtain ⟨t, ht⟩ := hc
        rw [← ht]
        by_cases hclosed : '\x7d' ∈ t
        · obtain ⟨name, u, rfl, hname⟩ := List.eq_append_cons_of_mem hclosed
          have hlt : u.length < n := by
            rw [← hn, ← ht]
            simp only [List.length_append, List.length_cons]
            omega
          obtain ⟨references, rest, hu⟩ := ih u.length hlt u rfl
          have hcut := Cut.closed (a := []) (by decide : ¬opening <:+: []) hname hu
          simp only [reference, List.append_assoc, List.singleton_append, List.nil_append] at hcut
          exact ⟨_, _, hcut⟩
        · have hnone : '\x7d' ∉ opening ++ t := by simpa [opening] using hclosed
          exact ⟨[], _, .rest (inert_of_not_mem hnone)⟩
      · obtain ⟨references, rest, hs⟩ := ih s.length (hn ▸ Nat.lt_succ_self _) s rfl
        exact hs.cons hc

theorem name_append_inj {name' : List Char} (hname : '\x7d' ∉ name) (hname' : '\x7d' ∉ name')
    (h : name ++ '\x7d' :: s = name' ++ '\x7d' :: t) : name = name' ∧ s = t := by
  have hrun : ∀ {name : List Char}, '\x7d' ∉ name → ∀ c ∈ name, decide (c ≠ '\x7d') = true :=
    fun hname c hc => decide_eq_true fun heq => hname (heq ▸ hc)
  obtain ⟨hnames, -, hst⟩ := Text.run_append_inj (hrun hname) (hrun hname') rfl rfl h
  exact ⟨hnames, hst⟩

theorem Cut.unique {references' : List (List Char × List Char)} {rest' : List Char}
    (h : Cut s references rest) (h' : Cut s references' rest') :
    references = references' ∧ rest = rest' := by
  induction h generalizing references' rest' with
  | rest hs =>
    cases h' with
    | rest => exact ⟨rfl, rfl⟩
    | closed => exact absurd hs (not_inert _ _ _)
  | @closed a name s rest references ha hname hs ih =>
    generalize hu : a ++ reference name ++ s = u at h'
    cases h' with
    | rest hinert => exact absurd (hu ▸ hinert) (not_inert a name s)
    | @closed b name' t _ _ hb hname' ht =>
      have hopen : a ++ opening ++ (name ++ '\x7d' :: s) =
          b ++ opening ++ (name' ++ '\x7d' :: t) := by
        simpa [reference] using hu
      obtain ⟨rfl, hafter⟩ := plain_append_inj ha hb hopen
      obtain ⟨rfl, rfl⟩ := name_append_inj hname hname' hafter
      obtain ⟨rfl, rfl⟩ := ih ht
      exact ⟨rfl, rfl⟩

end Reading

section Expanding

theorem isSome_closing? : (closing? s).isSome = true ↔ '\x7d' ∈ s := by
  induction s with
  | nil => simp [closing?]
  | cons c s ih =>
    rw [closing?]
    split
    · next hc => simp [hc]
    · next hc => simpa [List.mem_cons, Ne.symm hc] using ih

theorem expandFrom_nil (e : Environment) : expandFrom e .plain [] = [] := by
  rw [expandFrom]

theorem expandFrom_plain_cons (hc : ¬opening <+: c :: s) :
    expandFrom e .plain (c :: s) = c :: expandFrom e .plain s := by
  rw [opening_prefix_cons] at hc
  rw [expandFrom]
  rintro rest rfl rfl
  exact hc ⟨rfl, rfl⟩

theorem expandFrom_inName (hname : '\x7d' ∉ name) (before : List Char) :
    expandFrom e (.inName before) (name ++ '\x7d' :: s) =
      valueOf e (before.reverse ++ name) ++ expandFrom e .plain s := by
  induction name generalizing before with
  | nil => simp [expandFrom]
  | cons c name ih =>
    obtain ⟨hc, hname⟩ := List.ne_and_not_mem_of_not_mem_cons hname
    rw [List.cons_append, expandFrom, if_neg hc.symm, ih hname]
    simp

theorem expandFrom_reference (hname : '\x7d' ∉ name) :
    expandFrom e .plain (reference name ++ s) = valueOf e name ++ expandFrom e .plain s := by
  have hclosed : (closing? (name ++ '\x7d' :: s)).isSome = true :=
    isSome_closing?.mpr (List.mem_append_right _ List.mem_cons_self)
  have htext : reference name ++ s = '$' :: '\x7b' :: (name ++ '\x7d' :: s) := by
    simp [reference, opening]
  rw [htext, expandFrom]
  simp only [hclosed, if_true]
  rw [expandFrom, expandFrom_inName hname []]
  rfl

/-- Plain text stays as it is, whatever comes after it, unless a reference begins right where it
ends. -/
theorem expandFrom_append (ha : Plain a) (hs : a.getLast? = some '$' → s.head? ≠ some '\x7b') :
    expandFrom e .plain (a ++ s) = a ++ expandFrom e .plain s := by
  induction a with
  | nil => rfl
  | cons c a ih =>
    obtain ⟨hc, ha⟩ := plain_cons.mp ha
    have hfront : ¬opening <+: c :: (a ++ s) := by
      rw [opening_prefix_cons] at hc ⊢
      cases a with
      | nil => exact fun ⟨hdollar, hbrace⟩ => hs (hdollar ▸ rfl) hbrace
      | cons d a => exact hc
    have hlast : a.getLast? = some '$' → s.head? ≠ some '\x7b' := by
      cases a with
      | nil => exact nofun
      | cons d a => exact hs
    rw [List.cons_append, expandFrom_plain_cons hfront, ih ha hlast, List.cons_append]

theorem expandFrom_of_inert (h : Inert s) : expandFrom e .plain s = s := by
  induction s with
  | nil => exact expandFrom_nil e
  | cons c s ih =>
    by_cases hc : opening <+: c :: s
    · obtain ⟨t, ht⟩ := hc
      have hopen : ¬(closing? t).isSome = true :=
        isSome_closing?.not.mpr (h [] t ht.symm)
      rw [← ht]
      simp only [opening, List.cons_append, List.nil_append]
      rw [expandFrom]
      simp only [hopen]
      rfl
    · rw [expandFrom_plain_cons hc, ih h.of_cons]

theorem expandFrom_closed (ha : Plain a) (hname : '\x7d' ∉ name) (s : List Char) :
    expandFrom e .plain (a ++ reference name ++ s) =
      a ++ valueOf e name ++ expandFrom e .plain s := by
  have hdollar : (reference name ++ s).head? ≠ some '\x7b' := by simp [reference, opening]
  rw [List.append_assoc, expandFrom_append ha fun _ => hdollar, expandFrom_reference hname,
    List.append_assoc]

theorem Cut.expandFrom_append (h : Cut s references rest) (hrest : Plain rest)
    (hs : s.getLast? ≠ some '$') (t : List Char) :
    expandFrom e .plain (s ++ t) = expandFrom e .plain s ++ expandFrom e .plain t := by
  induction h with
  | rest hinert =>
    rw [expandFrom_of_inert hinert]
    exact Expansion.expandFrom_append hrest fun hlast => absurd hlast hs
  | @closed a name s rest references ha hname h ih =>
    have hlast : s.getLast? ≠ some '$' := by
      cases s with
      | nil => exact nofun
      | cons c s => rwa [List.getLast?_append_of_ne_nil _ (List.cons_ne_nil c s)] at hs
    rw [List.append_assoc, expandFrom_closed ha hname, expandFrom_closed ha hname, ih hrest hlast,
      ← List.append_assoc]

end Expanding

section Texts

theorem ofList_valueOf (e : Environment) (name : String) :
    String.ofList (valueOf e name.toList) = value e name := by
  by_cases hname : name = ""
  · rw [hname]
    rfl
  · have hlist : name.toList.isEmpty = false := by
      rw [List.isEmpty_eq_false_iff]
      exact fun h => hname (String.toList_eq_nil_iff.mp h)
    rw [valueOf, value, hlist, if_neg hname, String.ofList_toList]
    cases e.get? name with
    | none => rfl
    | some v => exact String.ofList_toList

theorem replaces_expand (e : Environment) : Replaces e (expand e) where
  closed a name b ha hname := by
    have htext : (a ++ "$\x7b" ++ name ++ "\x7d" ++ b).toList =
        a.toList ++ reference name.toList ++ b.toList := by
      simp [String.toList_append, reference, opening]
    rw [expand, htext, expandFrom_closed ha hname, String.ofList_append, String.ofList_append,
      ofList_valueOf, String.ofList_toList]
    rfl
  inert s hs := by rw [expand, expandFrom_of_inert hs, String.ofList_toList]

/-- The two laws leave no choice, since every text is cut at its closed references in some way. -/
theorem Replaces.eq {f g : String → String} (hf : Replaces e f) (hg : Replaces e g) : f = g := by
  funext text
  obtain ⟨references, rest, hcut⟩ := exists_cut text.toList
  generalize hs : text.toList = s at hcut
  induction hcut generalizing text with
  | rest hinert =>
    rw [← hs] at hinert
    rw [hf.inert text hinert, hg.inert text hinert]
  | @closed a name s rest references ha hname h ih =>
    have htext : text =
        .ofList a ++ "$\x7b" ++ .ofList name ++ "\x7d" ++ .ofList s := by
      rw [← String.toList_inj, hs]
      simp [String.toList_append, reference, opening]
    have ha' : Plain (String.ofList a).toList := by rwa [String.toList_ofList]
    have hname' : '\x7d' ∉ (String.ofList name).toList := by rwa [String.toList_ofList]
    rw [htext, hf.closed _ _ _ ha' hname', hg.closed _ _ _ ha' hname', ih (.ofList s)]
    exact String.toList_ofList

/-- Expansion is the one function that replaces closed references by the values of variables, as
they are, and leaves a text alone in which no reference is closed. Every text has one way to be cut
at its closed references. If no reference is left open after the last of them, and a dollar sign at
the end does not begin one either, then what comes after the text is expanded by itself. -/
theorem eq_expand_iff (e : Environment) :
    (∀ f, Replaces e f ↔ f = expand e) ∧
    (∀ s, ∃! cut : List (List Char × List Char) × List Char, Cut s cut.1 cut.2) ∧
    ∀ (x y : String) (references : List (List Char × List Char)) (rest : List Char),
      Cut x.toList references rest → Plain rest → x.toList.getLast? ≠ some '$' →
        expand e (x ++ y) = expand e x ++ expand e y := by
  refine ⟨fun f => ⟨fun hf => hf.eq (replaces_expand e), fun hf => hf ▸ replaces_expand e⟩,
    fun s => ?_, fun x y references rest hcut hrest hx => ?_⟩
  · obtain ⟨references, rest, hcut⟩ := exists_cut s
    refine ⟨(references, rest), hcut, fun cut hcut' => ?_⟩
    obtain ⟨hreferences, hrest⟩ := hcut'.unique hcut
    exact Prod.ext hreferences hrest
  · rw [expand, String.toList_append, hcut.expandFrom_append hrest hx, String.ofList_append]
    rfl

theorem eq_expand_iff_of_nested :
    let e : Environment := ⟨[("A", "$\x7bB\x7d"), ("B", "é")]⟩
    expand e "$$\x7bA\x7d-$\x7bB" = "$$\x7bB\x7d-$\x7bB" ∧
      expand e ("$\x7bA\x7d" ++ "$\x7bB") = expand e "$\x7bA\x7d" ++ expand e "$\x7bB" := by
  intro e
  obtain ⟨hlaws, -, happend⟩ := eq_expand_iff e
  have hexpand := (hlaws (expand e)).mpr rfl
  have hopen : expand e "-$\x7bB" = "-$\x7bB" := hexpand.inert _ (inert_of_not_mem (by decide))
  have hclosed := hexpand.closed "$" "A" "-$\x7bB" (by decide : ¬opening <:+: _) (by decide)
  rw [hopen] at hclosed
  have hrest : Cut [] [] [] := .rest (inert_of_not_mem (by decide))
  have hcut : Cut "$\x7bA\x7d".toList [([], ['A'])] [] :=
    .closed (by decide : ¬opening <:+: []) (by decide : '\x7d' ∉ ['A']) hrest
  exact ⟨hclosed, happend _ _ _ _ hcut (by decide : ¬opening <:+: []) (by decide)⟩

end Texts

end BuildWatch.Expansion
