import BuildWatch.Diagnostic.Edit
import BuildWatch.Proofs.Text.Cut

namespace BuildWatch

namespace Diagnostic

open Text

def header (file : Path) (p : Position) : String :=
  file.text ++ ":" ++ toString (p.line.toUInt64 + 1) ++ ":" ++ toString (p.column.toUInt64 + 1) ++
    ": error: [stackrunner] "

section Header

variable {file : Path} {p q : Position} {s t : List Char}

theorem toNat_toUInt64_add_one (n : UInt32) : (n.toUInt64 + 1).toNat = n.toNat + 1 := by
  have hn := n.toNat_lt
  rw [UInt64.toNat_add, UInt32.toNat_toUInt64]
  change (n.toNat + 1) % 2 ^ 64 = n.toNat + 1
  omega

theorem toString_toUInt64_add_one (n : UInt32) :
    toString (n.toUInt64 + 1) = toString (n.toNat + 1) := by
  rw [← toNat_toUInt64_add_one]
  rfl

theorem render_eq (file : Path) (d : Diagnostic) :
    d.render file = header file d.range.start ++ .ofList (indentRest d.message.toList) := by
  have hlabel : ": error: [stackrunner] " = ": " ++ severity ++ ": [" ++ source ++ "] " := by decide
  rw [header, toString_toUInt64_add_one, toString_toUInt64_add_one, hlabel]
  simp only [render, String.append_assoc]

theorem toList_header :
    (header file p).toList = file.text.toList ++ ':' :: (Nat.toDigits 10 (p.line.toNat + 1) ++ ':' ::
      (Nat.toDigits 10 (p.column.toNat + 1) ++ ':' :: " error: [stackrunner] ".toList)) := by
  rw [header, toString_toUInt64_add_one, toString_toUInt64_add_one]
  simp

theorem isDigit_toDigits (n : Nat) : ∀ c ∈ Nat.toDigits 10 n, c.isDigit = true :=
  fun _ => Nat.isDigit_of_mem_toDigits (by decide) (by decide)

theorem toDigits_append_inj {m n : Nat} (h : Nat.toDigits 10 m ++ ':' :: s =
    Nat.toDigits 10 n ++ ':' :: t) : m = n ∧ s = t := by
  obtain ⟨hdigits, -, hrest⟩ :=
    run_append_inj (isDigit_toDigits m) (isDigit_toDigits n) (by decide) (by decide) h
  have hboth := congrArg (Nat.ofDigitChars 10 · 0) hdigits
  simp only [Nat.ofDigitChars_ten_toDigits] at hboth
  exact ⟨hboth, hrest⟩

/-- The header of an entry ends where its place and its label do, whatever the message. -/
theorem header_append_inj (h : (header file p).toList ++ s = (header file q).toList ++ t) :
    p = q ∧ s = t := by
  simp only [toList_header, List.append_assoc, List.cons_append] at h
  have hplace := (List.cons.inj (List.append_cancel_left h)).2
  obtain ⟨hline, hafter⟩ := toDigits_append_inj hplace
  obtain ⟨hcolumn, hlabel⟩ := toDigits_append_inj hafter
  have hl : p.line = q.line := UInt32.toNat_inj.mp (Nat.succ.inj hline)
  have hc : p.column = q.column := UInt32.toNat_inj.mp (Nat.succ.inj hcolumn)
  refine ⟨?_, List.append_cancel_left hlabel⟩
  cases p
  cases q
  rw [Position.mk.injEq]
  exact ⟨hl, hc⟩

theorem noBreak_header (hfile : '\n' ∉ file.text.toList) : '\n' ∉ (header file p).toList := by
  have hdigits : ∀ n, '\n' ∉ Nat.toDigits 10 n := by
    intro n hmem
    exact absurd (isDigit_toDigits n _ hmem) (by decide)
  rw [toList_header]
  simp [hfile, hdigits]

theorem not_indented_header (hfile : ¬indentation <+: file.text.toList) :
    ¬indentation <+: (header file p).toList ++ s := by
  rw [toList_header, List.append_assoc, List.cons_append, List.append_cons]
  intro h
  rcases List.prefix_or_prefix_of_prefix h (List.prefix_append _ _) with h | h
  · rcases List.prefix_concat_iff.mp h with h | h
    · have hcolon : ':' ∈ indentation := by
        rw [h]
        exact List.mem_append_right _ List.mem_cons_self
      exact absurd hcolon (by decide)
    · exact hfile h
  · have hcolon : ':' ∈ indentation := h.subset (List.mem_append_right _ List.mem_cons_self)
    exact absurd hcolon (by decide)

end Header

end Diagnostic

namespace Edit

open Text Diagnostic

variable {file : Path} {ds es : List Diagnostic}

def entry (file : Path) (d : Diagnostic) : List Char :=
  (header file d.range.start).toList ++ indentRest d.message.toList

theorem toList_print_set (hds : ds ≠ []) :
    (Edit.set file ds).print.toList = (ds.map (entry file)).flatMap fun e => e ++ ['\n'] := by
  have hannounce : (Edit.set file ds).announce = ds.map (·.render file) := by
    cases ds with
    | nil => exact absurd rfl hds
    | cons d ds => rfl
  have hentry : ∀ d : Diagnostic, (d.render file ++ "\n").toList = entry file d ++ ['\n'] := by
    intro d
    rw [render_eq, entry]
    simp
  rw [print, String.toList_join, hannounce, List.map_map, List.flatMap_map, List.flatMap_map]
  exact congrArg (fun f => ds.flatMap f) (funext hentry)

theorem entries_print_set (hbreak : '\n' ∉ file.text.toList)
    (hindent : ¬indentation <+: file.text.toList) (hds : ds ≠ []) :
    entries (Edit.set file ds).print.toList = ds.map (entry file) := by
  rw [toList_print_set hds]
  refine entries_flatMap fun e he => ?_
  obtain ⟨d, -, rfl⟩ := List.mem_map.mp he
  refine ⟨indented_append (noBreak_header hbreak) (indented_indentRest _), fun s => ?_⟩
  rw [entry, List.append_assoc]
  exact not_indented_header hindent

theorem entry_inj {d e : Diagnostic} (h : entry file d = entry file e) :
    d.range.start = e.range.start ∧ d.message = e.message := by
  obtain ⟨hstart, hrest⟩ := header_append_inj h
  have hmessage := congrArg outdentRest hrest
  rw [outdentRest_indentRest, outdentRest_indentRest] at hmessage
  exact ⟨hstart, String.toList_inj.mp hmessage⟩

theorem starts_of_entries (h : es.map (entry file) = ds.map (entry file)) :
    es.map (fun d => (d.range.start, d.message)) = ds.map fun d => (d.range.start, d.message) := by
  induction es generalizing ds with
  | nil => rw [List.map_eq_nil_iff.mp h.symm]
  | cons e es ih =>
    cases ds with
    | nil => cases h
    | cons d ds =>
      obtain ⟨hhead, hrest⟩ := List.cons.inj h
      obtain ⟨hstart, hmessage⟩ := entry_inj hhead
      rw [List.map_cons, List.map_cons, ih hrest, hstart, hmessage]

theorem print_set_ne_print_erase (hds : ds ≠ []) :
    (Edit.set file ds).print ≠ (Edit.erase file).print := by
  intro h
  obtain ⟨d, ds, rfl⟩ := List.exists_cons_of_ne_nil hds
  have htext := congrArg String.toList h
  have herase : (Edit.erase file).print.toList =
      file.text.toList ++ ':' :: " cleared\n".toList := by
    simp [print, announce]
  rw [toList_print_set hds, herase, List.map_cons, List.flatMap_cons] at htext
  simp only [entry, toList_header, List.append_assoc, List.cons_append] at htext
  have hafter := (List.cons.inj (List.append_cancel_left htext)).2
  cases hdigits : Nat.toDigits 10 (d.range.start.line.toNat + 1) with
  | nil => exact absurd hdigits Nat.toDigits_ne_nil
  | cons c cs =>
    rw [hdigits] at hafter
    have hc : c.isDigit = true := by
      apply isDigit_toDigits (d.range.start.line.toNat + 1)
      rw [hdigits]
      exact List.mem_cons_self
    rw [(List.cons.inj hafter).1] at hc
    exact absurd hc (by decide)

/-- From the text that tells of the diagnostics of a file one can tell where each of them starts and
what its message is, whatever the messages look like. For each there is one entry, in order, and the
indentation of its further lines can be taken away again. -/
theorem print_set_readable (hbreak : '\n' ∉ file.text.toList)
    (hindent : ¬indentation <+: file.text.toList) (hds : ds ≠ []) :
    let text := (Edit.set file ds).print
    ((entries text.toList).map String.ofList = ds.map fun d =>
      file.text ++ ":" ++ toString (d.range.start.line.toUInt64 + 1) ++ ":" ++
        toString (d.range.start.column.toUInt64 + 1) ++ ": error: [stackrunner] " ++
        .ofList (indentRest d.message.toList)) ∧
    (∀ d ∈ ds, String.ofList (outdentRest (indentRest d.message.toList)) = d.message ∧
      (d.range.start.line.toUInt64 + 1).toNat = d.range.start.line.toNat + 1 ∧
      (d.range.start.column.toUInt64 + 1).toNat = d.range.start.column.toNat + 1) ∧
    ∀ es, (Edit.set file es).print = text →
      es.map (fun d => (d.range.start, d.message)) =
        ds.map fun d => (d.range.start, d.message) := by
  intro text
  have hentries : entries text.toList = ds.map (entry file) :=
    entries_print_set hbreak hindent hds
  refine ⟨?_, fun d _ => ⟨?_, toNat_toUInt64_add_one _, toNat_toUInt64_add_one _⟩, fun es h => ?_⟩
  · rw [hentries, List.map_map]
    refine List.map_congr_left fun d _ => ?_
    rw [Function.comp_apply, entry, String.ofList_append, String.ofList_toList, header]
  · rw [outdentRest_indentRest, String.ofList_toList]
  · by_cases hes : es = []
    · subst hes
      exact absurd h.symm (print_set_ne_print_erase hds)
    · apply starts_of_entries
      rw [← hentries, ← entries_print_set hbreak hindent hes, h]

theorem print_set_readable_of_lookalike :
    let file : Path := ⟨"a.hs"⟩
    let message := "x\n\n    y\na.hs:1:1: error: [stackrunner] z\n"
    let ds : List Diagnostic := [⟨message, .point .documentEnd⟩, ⟨"", .point ⟨0, 0⟩⟩]
    '\n' ∉ file.text.toList ∧ ¬indentation <+: file.text.toList ∧
      (entries (Edit.set file ds).print.toList).map String.ofList =
        ["a.hs:4294967296:4294967296: error: [stackrunner] x\n    \n        y\n" ++
          "    a.hs:1:1: error: [stackrunner] z\n    ", "a.hs:1:1: error: [stackrunner] "] ∧
      ∀ es, (Edit.set file es).print = (Edit.set file ds).print →
        es.map (·.message) = [message, ""] := by
  intro file message ds
  have hbreak : '\n' ∉ file.text.toList := by decide
  have hindent : ¬indentation <+: file.text.toList := by decide
  obtain ⟨hentries, -, hread⟩ := print_set_readable hbreak hindent (List.cons_ne_nil _ _ : ds ≠ [])
  refine ⟨hbreak, hindent, hentries.trans (by decide +kernel), fun es h => ?_⟩
  have hboth := congrArg (List.map Prod.snd) (hread es h)
  rwa [List.map_map] at hboth

end Edit

end BuildWatch
