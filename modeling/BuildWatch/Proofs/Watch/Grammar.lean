import BuildWatch.Proofs.Joining
import BuildWatch.Proofs.Text.Words
import BuildWatch.Watch.Event

namespace BuildWatch.Watch.Event

/-- What a line says. The verb ends at the first blank after it, while there may be blanks inside
the argument. -/
inductive Says (line : String) : String → Option String → Prop where
  | alone {verb : String} (front back : List Char) (hf : Text.allBlank front = true)
      (hb : Text.allBlank back = true) (hv : Text.Word verb.toList)
      (hline : line.toList = front ++ verb.toList ++ back) : Says line verb none
  | followed {verb argument : String} (front gap back : List Char)
      (hf : Text.allBlank front = true) (hg : Text.allBlank gap = true)
      (hb : Text.allBlank back = true) (hv : Text.Word verb.toList) (hne : gap ≠ [])
      (ha : Text.Tight argument.toList)
      (hline : line.toList = front ++ (verb.toList ++ gap ++ argument.toList) ++ back) :
      Says line verb (some argument)

inductive Means (root : Path) : String → Option String → Event → Prop where
  | save (argument : String) : Means root "save" (some argument) (.saved (root.join ⟨argument⟩))
  | opens (argument : String) : Means root "open" (some argument) (.opened (root.join ⟨argument⟩))
  | run : Means root "run" none (.run none)
  | runs (argument : String) :
      Means root "run" (some argument) (.run (some (root.join ⟨argument⟩)))
  | stop : Means root "stop" none .stop
  | quit : Means root "quit" none .quit
  | exit : Means root "exit" none .quit

def complaint (line verb : String) (argument : Option String) : EventError :=
  if argument = none ∧ (verb = "save" ∨ verb = "open") then .needsPath verb
  else .unrecognized (Text.trimmed line)

def verbs : Event → List String
  | .saved _ => ["save"]
  | .opened _ => ["open"]
  | .run _ => ["run"]
  | .stop => ["stop"]
  | .quit => ["quit", "exit"]

def document? : Event → Option Path
  | .saved document => some document
  | .opened document => some document
  | .run document => document
  | .stop => none
  | .quit => none

variable {root : Path} {line verb : String} {argument : Option String} {event : Event}

section Saying

theorem Says.tight_trim (h : Says line verb argument) : Text.Tight (Text.trim line.toList) := by
  cases h with
  | alone _ _ hf hb hv hline =>
    rw [hline, Text.trim_surround hf hb hv.tight]
    exact hv.tight
  | @followed argument _ gap _ hf hg hb hv hne ha hline =>
    have hbody := hv.tight.append ha gap
    rw [hline, Text.trim_surround hf hb hbody]
    exact hbody

theorem Says.verbAndArgument_trim (h : Says line verb argument) :
    verbAndArgument (Text.trim line.toList) = (verb, argument) := by
  cases h with
  | alone _ _ hf hb hv hline =>
    rw [hline, Text.trim_surround hf hb hv.tight, verbAndArgument,
      Text.splitAtBlank_eq_none_iff.mpr hv.solid, String.ofList_toList]
  | @followed argument _ gap _ hf hg hb hv hne ha hline =>
    obtain ⟨c, gap, rfl⟩ := List.exists_cons_of_ne_nil hne
    obtain ⟨hc, hg⟩ := Text.allBlank_cons.mp hg
    have hsplit : Text.splitAtBlank (verb.toList ++ c :: gap ++ argument.toList) =
        some (verb.toList, gap ++ argument.toList) :=
      Text.splitAtBlank_eq_some_iff.mpr ⟨hv.solid, c, hc, List.append_assoc _ _ _⟩
    have htrim : Text.trim (gap ++ argument.toList) = argument.toList := by
      rw [← List.append_nil (gap ++ argument.toList)]
      exact Text.trim_surround hg rfl ha
    rw [hline, Text.trim_surround hf hb (hv.tight.append ha _), verbAndArgument, hsplit]
    simp [htrim, ha.ne_nil]

theorem Says.unique {verb' : String} {argument' : Option String} (h : Says line verb argument)
    (h' : Says line verb' argument') : verb = verb' ∧ argument = argument' :=
  Prod.mk.inj (h.verbAndArgument_trim.symm.trans h'.verbAndArgument_trim)

theorem exists_said (h : Text.allBlank line.toList = false) :
    ∃ verb argument, Says line verb argument := by
  obtain ⟨front, back, hf, hb, hline⟩ := Text.exists_surround line.toList
  have htight := Text.tight_trim h
  generalize Text.trim line.toList = body at hline htight
  cases hsplit : Text.splitAtBlank body with
  | none =>
    refine ⟨.ofList body, none, .alone front back hf hb ?_ ?_⟩
    · rw [String.toList_ofList]
      exact ⟨htight.ne_nil, Text.splitAtBlank_eq_none_iff.mp hsplit⟩
    · rw [String.toList_ofList]
      exact hline
  | some parts =>
    obtain ⟨verb, rest⟩ := parts
    obtain ⟨hsolid, c, hc, hbody⟩ := Text.splitAtBlank_eq_some_iff.mp hsplit
    rw [hbody] at htight hline
    have hverb : verb ≠ [] := by
      rintro rfl
      obtain ⟨d, hd, hfirst⟩ := htight.first
      rw [← Option.some.inj hd, hc] at hfirst
      cases hfirst
    have hrest : Text.allBlank rest = false := by
      refine Bool.eq_false_iff.mpr fun hblank => ?_
      obtain ⟨d, hd, hlast⟩ := htight.last
      rw [List.getLast?_append_of_ne_nil _ (List.cons_ne_nil c rest)] at hd
      have hmem := List.mem_of_getLast? hd
      rw [List.all_eq_true.mp (Text.allBlank_cons.mpr ⟨hc, hblank⟩) d hmem] at hlast
      cases hlast
    obtain ⟨gap, after, hg, hafter, hgap⟩ := Text.exists_surround rest
    refine ⟨.ofList verb, some (.ofList (Text.trim rest)), .followed front (c :: gap)
      (after ++ back) hf (Text.allBlank_cons.mpr ⟨hc, hg⟩)
      (Text.allBlank_append.mpr ⟨hafter, hb⟩) ?_ (List.cons_ne_nil c gap) ?_ ?_⟩
    · rw [String.toList_ofList]
      exact ⟨hverb, hsolid⟩
    · rw [String.toList_ofList]
      exact Text.tight_trim hrest
    · rw [hline, String.toList_ofList, String.toList_ofList]
      conv_lhs => rw [hgap]
      simp only [List.append_assoc, List.cons_append]

end Saying

section Meaning

theorem parse_of_allBlank (h : Text.allBlank line.toList = true) (root : Path) :
    parse root line = .ok none := by
  rw [parse, Text.trim_eq_nil_iff.mpr h]
  rfl

theorem parse_of_means (h : Says line verb argument) (hm : Means root verb argument event) :
    parse root line = .ok (some event) := by
  have hempty : (Text.trim line.toList).isEmpty = false :=
    List.isEmpty_eq_false_iff.mpr h.tight_trim.ne_nil
  cases hm <;> simp [parse, hempty, h.verbAndArgument_trim]

theorem parse_of_said (h : Says line verb argument) (root : Path) :
    (∃ event, Means root verb argument event) ∨
      parse root line = .error (complaint line verb argument) := by
  have hempty : (Text.trim line.toList).isEmpty = false :=
    List.isEmpty_eq_false_iff.mpr h.tight_trim.ne_nil
  simp only [parse, hempty, h.verbAndArgument_trim, Bool.false_eq_true, if_false]
  split
  · next argument h =>
    obtain ⟨rfl, rfl⟩ := Prod.mk.inj h
    exact .inl ⟨_, .save argument⟩
  · next argument h =>
    obtain ⟨rfl, rfl⟩ := Prod.mk.inj h
    exact .inl ⟨_, .opens argument⟩
  · next h =>
    obtain ⟨rfl, rfl⟩ := Prod.mk.inj h
    exact .inr rfl
  · next h =>
    obtain ⟨rfl, rfl⟩ := Prod.mk.inj h
    exact .inr rfl
  · next argument h =>
    obtain ⟨rfl, rfl⟩ := Prod.mk.inj h
    cases argument with
    | none => exact .inl ⟨_, .run⟩
    | some argument => exact .inl ⟨_, .runs argument⟩
  · next h =>
    obtain ⟨rfl, rfl⟩ := Prod.mk.inj h
    exact .inl ⟨_, .stop⟩
  · next h =>
    obtain ⟨rfl, rfl⟩ := Prod.mk.inj h
    exact .inl ⟨_, .quit⟩
  · next h =>
    obtain ⟨rfl, rfl⟩ := Prod.mk.inj h
    exact .inl ⟨_, .exit⟩
  · next hsave hopen _ _ _ _ =>
    refine .inr (congrArg _ (if_neg ?_).symm)
    rintro ⟨rfl, rfl | rfl⟩
    · exact hsave rfl
    · exact hopen rfl

end Meaning

section Reading

theorem parse_eq_ok_none_iff : parse root line = .ok none ↔ Text.allBlank line.toList = true := by
  constructor
  · intro h
    by_contra hblank
    obtain ⟨verb, argument, hsaid⟩ := exists_said (Bool.eq_false_iff.mpr hblank)
    rcases parse_of_said hsaid root with ⟨event, hmeans⟩ | herror
    · rw [parse_of_means hsaid hmeans] at h
      cases h
    · rw [herror] at h
      cases h
  · exact fun h => parse_of_allBlank h root

theorem parse_eq_ok_some_iff : parse root line = .ok (some event) ↔
    ∃ verb argument, Says line verb argument ∧ Means root verb argument event := by
  constructor
  · intro h
    cases hblank : Text.allBlank line.toList with
    | true =>
      rw [parse_of_allBlank hblank] at h
      cases h
    | false =>
      obtain ⟨verb, argument, hsaid⟩ := exists_said hblank
      rcases parse_of_said hsaid root with ⟨event', hmeans⟩ | herror
      · rw [parse_of_means hsaid hmeans] at h
        cases h
        exact ⟨verb, argument, hsaid, hmeans⟩
      · rw [herror] at h
        cases h
  · rintro ⟨verb, argument, hsaid, hmeans⟩
    exact parse_of_means hsaid hmeans

theorem parse_eq_error_iff {error : EventError} : parse root line = .error error ↔
    ∃ verb argument, Says line verb argument ∧ (∀ event, ¬Means root verb argument event) ∧
      error = complaint line verb argument := by
  constructor
  · intro h
    cases hblank : Text.allBlank line.toList with
    | true =>
      rw [parse_of_allBlank hblank] at h
      cases h
    | false =>
      obtain ⟨verb, argument, hsaid⟩ := exists_said hblank
      refine ⟨verb, argument, hsaid, fun event hmeans => ?_, ?_⟩
      · rw [parse_of_means hsaid hmeans] at h
        cases h
      · rcases parse_of_said hsaid root with ⟨event, hmeans⟩ | herror
        · rw [parse_of_means hsaid hmeans] at h
          cases h
        · exact Except.error.inj (h.symm.trans herror)
  · rintro ⟨verb, argument, hsaid, hnone, rfl⟩
    exact (parse_of_said hsaid root).resolve_left fun ⟨event, hmeans⟩ => hnone event hmeans

theorem toOption_parse_eq {line' : String} (h : Says line verb argument)
    (h' : Says line' verb argument) (root : Path) :
    (parse root line).toOption = (parse root line').toOption := by
  by_cases hmeans : ∃ event, Means root verb argument event
  · obtain ⟨event, hmeans⟩ := hmeans
    rw [parse_of_means h hmeans, parse_of_means h' hmeans]
  · rw [(parse_of_said h root).resolve_left hmeans, (parse_of_said h' root).resolve_left hmeans]
    rfl

theorem parse_surround {before after : String} (hb : Text.allBlank before.toList = true)
    (ha : Text.allBlank after.toList = true) (root : Path) (line : String) :
    parse root (before ++ line ++ after) = parse root line := by
  have htrim : Text.trim (before ++ line ++ after).toList = Text.trim line.toList := by
    rw [String.toList_append, String.toList_append, Text.trim_append ha, Text.trim, Text.trim,
      Text.trimStart_append hb]
  rw [parse, parse, htrim]

end Reading

section Telling

theorem means_of_mem_verbs (h : verb ∈ event.verbs)
    (hd : ∀ document, event.document? = some document → document.isAbsolute = true)
    (root : Path) : Means root verb (event.document?.map Path.text) event := by
  have hjoin : ∀ document, event.document? = some document → root.join ⟨document.text⟩ = document :=
    fun document hdocument => Path.join_of_absolute (hd document hdocument) root
  cases event with
  | saved document =>
    rw [List.mem_singleton.mp h]
    have hmeans : Means root "save" (some document.text) _ := .save document.text
    rwa [hjoin document rfl] at hmeans
  | opened document =>
    rw [List.mem_singleton.mp h]
    have hmeans : Means root "open" (some document.text) _ := .opens document.text
    rwa [hjoin document rfl] at hmeans
  | run document? =>
    rw [List.mem_singleton.mp h]
    cases document? with
    | none => exact .run
    | some document =>
      have hmeans : Means root "run" (some document.text) _ := .runs document.text
      rwa [hjoin document rfl] at hmeans
  | stop =>
    rw [List.mem_singleton.mp h]
    exact .stop
  | quit =>
    obtain rfl | h := List.mem_cons.mp h
    · exact .quit
    · rw [List.mem_singleton.mp h]
      exact .exit

theorem word_of_mem_verbs (h : verb ∈ event.verbs) : Text.Word verb.toList := by
  have hall : ∀ verb ∈ event.verbs, Text.Word verb.toList := by
    cases event <;> simp only [verbs] <;> decide
  exact hall verb h

theorem said_of_mem_verbs {gap : String} (h : verb ∈ event.verbs)
    (hg : Text.allBlank gap.toList = true)
    (hd : ∀ document, event.document? = some document →
      Text.Tight document.text.toList ∧ gap ≠ "") :
    Says (verb ++ gap ++ (event.document?.map Path.text).getD "") verb
      (event.document?.map Path.text) := by
  have hv := word_of_mem_verbs h
  cases hdocument : event.document? with
  | none =>
    refine .alone [] _ rfl hg hv ?_
    simp [String.toList_append]
  | some document =>
    obtain ⟨ht, hne⟩ := hd document hdocument
    refine .followed [] _ [] rfl hg rfl hv
      (fun h => hne (String.toList_eq_nil_iff.mp h)) ht ?_
    simp [String.toList_append]

end Telling

/-- A blank line tells nothing, and any other one says just one thing: it tells of an event if the
verb and the argument mean one, and is refused otherwise. Neither the blanks around it nor those
between the verb and its argument count. The document of an event is found from the workspace, or is
the argument itself if that is absolute. An event without a document, or with an absolute one that
has no blanks around it, is what each of its verbs tells together with the text of the document. -/
theorem parse_iff_said (root : Path) :
    (∀ line, parse root line = .ok none ↔ Text.allBlank line.toList = true) ∧
    (∀ line : String, Text.allBlank line.toList = false →
      ∃! said : String × Option String, Says line said.1 said.2) ∧
    (∀ line event, parse root line = .ok (some event) ↔
      ∃ verb argument, Says line verb argument ∧ Means root verb argument event) ∧
    (∀ line error, parse root line = .error error ↔
      ∃ verb argument, Says line verb argument ∧ (∀ event, ¬Means root verb argument event) ∧
        error = complaint line verb argument) ∧
    (∀ line before after : String, Text.allBlank before.toList = true →
      Text.allBlank after.toList = true →
      parse root (before ++ line ++ after) = parse root line) ∧
    (∀ line line' verb argument, Says line verb argument → Says line' verb argument →
      (parse root line).toOption = (parse root line').toOption) ∧
    (∀ argument : Path, argument.isAbsolute = true → root.join argument = argument) ∧
    (∀ argument : Path, argument.isAbsolute = false → root.text ≠ "" →
      (root.join argument).components =
        root.components ++ argument.components.filter (· ≠ .current)) ∧
    (root.text = "" → ∀ argument : Path, root.join argument = argument) ∧
    ∀ (event : Event) (verb gap : String), verb ∈ event.verbs → Text.allBlank gap.toList = true →
      (∀ document, event.document? = some document →
        document.isAbsolute = true ∧ Text.Tight document.text.toList ∧ gap ≠ "") →
      parse root (verb ++ gap ++ (event.document?.map Path.text).getD "") = .ok (some event) := by
  refine ⟨fun line => parse_eq_ok_none_iff, fun line h => ?_,
    fun line event => parse_eq_ok_some_iff, fun line error => parse_eq_error_iff,
    fun line before after hb ha => parse_surround hb ha root line,
    fun line line' verb argument h h' => toOption_parse_eq h h' root,
    fun argument h => Path.join_of_absolute h root,
    fun argument h hroot => Path.components_join hroot h,
    fun hroot argument => Path.join_of_text_eq hroot argument,
    fun event verb gap hverb hgap hdocument => ?_⟩
  · obtain ⟨verb, argument, hsaid⟩ := exists_said h
    refine ⟨(verb, argument), hsaid, fun said hother => ?_⟩
    obtain ⟨hverb, hargument⟩ := hother.unique hsaid
    exact Prod.ext hverb hargument
  · have hsaid := said_of_mem_verbs hverb hgap fun document h => (hdocument document h).2
    have hmeans := means_of_mem_verbs hverb (fun document h => (hdocument document h).1) root
    exact parse_of_means hsaid hmeans

theorem parse_iff_said_of_blanks :
    parse ⟨"/w"⟩ " save\t  a b.yaml\u3000" = .ok (some (.saved ⟨"/w/a b.yaml"⟩)) ∧
    (∀ argument, Says "save a b.yaml" "save a" argument → False) ∧
    (parse ⟨"/w"⟩ "save a b.yaml").toOption = some (some (.saved ⟨"/w/a b.yaml"⟩)) ∧
    ((Path.mk "/w").join ⟨"a b.yaml"⟩).components =
      (Path.mk "/w").components ++ [.normal "a b.yaml"] ∧
    (Path.mk "").join ⟨"a"⟩ = ⟨"a"⟩ ∧ (Path.mk "/w").join ⟨"/x y"⟩ = ⟨"/x y"⟩ ∧
    parse ⟨"/w"⟩ "stop it" = .error (.unrecognized "stop it") ∧
    parse ⟨"/w"⟩ "open\u00a0/x y" = .ok (some (.opened ⟨"/x y"⟩)) ∧
    parse ⟨"/w"⟩ "exit \t" = .ok (some .quit) := by
  obtain ⟨-, one, event, error, around, alike, absolute, relative, -, told⟩ := parse_iff_said ⟨"/w"⟩
  have hsave : Text.Word "save".toList := by decide
  have htabbed : Says "save\t  a b.yaml" "save" (some "a b.yaml") :=
    .followed [] ['\t', ' ', ' '] [] rfl rfl rfl hsave (by decide)
      (by decide) rfl
  have hspaced : Says "save a b.yaml" "save" (some "a b.yaml") :=
    .followed [] [' '] [] rfl rfl rfl hsave (by decide)
      (by decide) rfl
  have hmeans : Means ⟨"/w"⟩ "save" (some "a b.yaml") (.saved ⟨"/w/a b.yaml"⟩) :=
    .save "a b.yaml"
  have hevent : parse ⟨"/w"⟩ "save\t  a b.yaml" = .ok (some (.saved ⟨"/w/a b.yaml"⟩)) :=
    (event _ _).mpr ⟨_, _, htabbed, hmeans⟩
  refine ⟨?_, ?_, ?_, ?_, ?_, ?_, ?_, ?_, ?_⟩
  · exact (around "save\t  a b.yaml" " " "\u3000" (by decide) (by decide)).trans hevent
  · intro argument hother
    obtain ⟨said, -, hone⟩ := one "save a b.yaml" (by decide)
    have hpair : ("save a", argument) = ("save", some "a b.yaml") :=
      (hone (_, _) hother).trans (hone (_, _) hspaced).symm
    exact absurd (Prod.mk.inj hpair).1 (by decide)
  · rw [alike _ _ _ _ hspaced htabbed, hevent]
    rfl
  · exact relative ⟨"a b.yaml"⟩ (by decide) (by decide)
  · exact (parse_iff_said ⟨""⟩).2.2.2.2.2.2.2.2.1 rfl ⟨"a"⟩
  · exact absolute ⟨"/x y"⟩ (by decide)
  · refine (error _ _).mpr ⟨"stop", some "it", ?_, ?_, rfl⟩
    · exact .followed [] [' '] [] rfl rfl rfl (by decide) (by decide) (by decide) rfl
    · generalize hverb : "stop" = verb
      intro event hmeans
      cases hmeans <;> exact absurd hverb (by decide)
  · refine told (.opened ⟨"/x y"⟩) "open" "\u00a0" (by decide) (by decide) fun document h => ?_
    cases h
    exact ⟨by decide, by decide, by decide⟩
  · exact told .quit "exit" " \t" (by decide) (by decide) nofun

end BuildWatch.Watch.Event
