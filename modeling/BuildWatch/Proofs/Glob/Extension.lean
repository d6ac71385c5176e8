import BuildWatch.Glob
import BuildWatch.Proofs.Except
import BuildWatch.Proofs.Glob.Matching
import BuildWatch.Proofs.Text.Utf8

namespace BuildWatch.Glob

theorem parseAll_eq_ok_iff {patterns : List String} {globs : List Glob} :
    parseAll patterns = .ok globs ↔
      patterns.map parse = globs.map .ok ∧ nestingError? globs = none := by
  have hmap : patterns.mapM parse = .ok globs ↔ patterns.map parse = globs.map .ok := by
    rw [mapM_eq_ok_iff, ← List.forall₂_eq_eq_eq, List.forall₂_map_left_iff,
      List.forall₂_map_right_iff]
  rw [parseAll, bind_eq_ok_iff, ← hmap]
  constructor
  · rintro ⟨read, hread, h⟩
    cases hnesting : nestingError? read with
    | some e =>
      rw [hnesting] at h
      cases h
    | none =>
      rw [hnesting] at h
      obtain rfl : read = globs := Except.ok.inj h
      exact ⟨hread, hnesting⟩
  · rintro ⟨hread, hnesting⟩
    refine ⟨globs, hread, ?_⟩
    rw [hnesting]
    rfl

/-- The characters that end an extension, or a name, or mean something else in a pattern. -/
def reserved : List Char := ['.', '/', '?', '*', '[', '\x7b', '\x7d', '\\']

structure Extension where
  text : List Char
  ne_nil : text ≠ []
  plain : ∀ c ∈ text, c ∉ reserved

namespace Extension

def suffix (e : Extension) : List Char := '.' :: e.text

def pattern (e : Extension) : String := .ofList ('*' :: e.suffix)

def glob (e : Extension) : Glob := ⟨.many :: e.suffix.map .literal⟩

variable {e : Extension} {s : List Char}

theorem toList_pattern (e : Extension) : e.pattern.toList = '*' :: '.' :: e.text :=
  String.toList_ofList

theorem scan_plain (h : ∀ c ∈ s, c ∉ reserved) :
    Symbol.scan .plain s = s.map Symbol.ofChar := by
  induction s with
  | nil => rfl
  | cons c s ih =>
    obtain ⟨hc, hs⟩ := List.forall_mem_cons.mp h
    have hescape : c ≠ '\\' := fun he => hc (he ▸ by decide)
    have hclass : c ≠ '[' := fun he => hc (he ▸ by decide)
    rw [Symbol.scan, if_neg hescape, if_neg hclass, ih hs, List.map_cons]

theorem ofChar_plain {c : Char} (h : c ∉ reserved) :
    Symbol.ofChar c = if c = ',' then .comma else .literal c := by
  have hne : ∀ d ∈ reserved, c ≠ d := fun d hd he => h (he ▸ hd)
  rw [Symbol.ofChar, if_neg (hne '?' (by decide)), if_neg (hne '*' (by decide)),
    if_neg (hne '\x7b' (by decide)), if_neg (hne '\x7d' (by decide))]

theorem run_plain (h : ∀ c ∈ s, c ∉ reserved) (b : Builder) (hb : b.groups = [])
    (last : Option Char) :
    b.run last (s.map Symbol.ofChar) = .ok (b.tokens.reverse ++ s.map .literal) := by
  induction s generalizing b last with
  | nil => simp [Builder.run, Builder.finish, hb]
  | cons c s ih =>
    obtain ⟨hc, hs⟩ := List.forall_mem_cons.mp h
    have hrest : (b.push (.literal c)).run (some c) (s.map Symbol.ofChar) =
        .ok (b.tokens.reverse ++ (c :: s).map .literal) := by
      rw [ih hs (b.push (.literal c)) hb (some c)]
      simp [Builder.push]
    rw [List.map_cons, ofChar_plain hc]
    by_cases hcomma : c = ','
    · subst hcomma
      have hpush : b.comma = b.push (.literal ',') := by rw [Builder.comma, hb]
      rw [if_pos rfl, Builder.run, hpush, hrest]
    · rw [if_neg hcomma, Builder.run, hrest]

theorem parse_pattern (e : Extension) : parse e.pattern = .ok e.glob := by
  have htokens : tokensOf e.pattern = .ok e.glob.tokens := by
    rw [tokensOf, toList_pattern]
    have hscan : Symbol.scan .plain ('*' :: '.' :: e.text) =
        .star :: .literal '.' :: e.text.map Symbol.ofChar := by
      rw [← scan_plain e.plain]
      rfl
    have hrun : Builder.start.run none (.star :: .literal '.' :: e.text.map Symbol.ofChar) =
        ((Builder.start.push .many).push (.literal '.')).run (some '.')
          (e.text.map Symbol.ofChar) := rfl
    rw [hscan, hrun, run_plain e.plain _ rfl]
    rfl
  rw [parse, htokens]
  rfl

theorem form_glob (e : Extension) : e.glob.form = .extension := by
  have hparts : (e.text.map Token.literal).all Form.isExtensionPart = true := by
    rw [List.all_map, List.all_eq_true]
    intro c hc
    have hplain := e.plain c hc
    have hdot : c ≠ '.' := fun he => hplain (he ▸ by decide)
    have hslash : c ≠ '/' := fun he => hplain (he ▸ by decide)
    simp [Form.isExtensionPart, Form.isNamePart, Form.isDot, hdot, hslash]
  have hextension : Form.isExtension (.literal '.' :: e.text.map .literal) = true := hparts
  have hname : Form.isName e.glob.tokens = false := rfl
  have hpath : e.glob.tokens.all Form.isLiteral = false := rfl
  rw [form, Form.ofTokens, hname, hpath, Bool.and_false, if_neg Bool.false_ne_true,
    if_neg Bool.false_ne_true]
  exact if_pos hextension

theorem nestingError?_map (es : List Extension) : nestingError? (es.map glob) = none := by
  have hform : ∀ g ∈ es.map glob, g.form = .extension :=
    List.forall_mem_map.mpr fun e _ => form_glob e
  have hsuffixed : (es.map glob).find? (fun g => g.form = .suffixed && tooDeep g.tokens) = none :=
    List.find?_eq_none.mpr fun g hg => by simp [hform g hg]
  have hgeneral : (es.map glob).filter (fun g => g.form = .general) = [] :=
    List.filter_eq_nil_iff.mpr fun g hg => by simp [hform g hg]
  rw [nestingError?, hsuffixed, hgeneral]
  rfl

theorem parseAll_map (es : List Extension) : parseAll (es.map pattern) = .ok (es.map glob) := by
  rw [parseAll_eq_ok_iff, List.map_map, List.map_map]
  exact ⟨List.map_congr_left fun e _ => parse_pattern e, nestingError?_map es⟩

theorem endsInParent_eq_false {cs : List Char} (h : e.suffix <:+ cs) :
    endsInParent (Utf8.encode cs) = false := by
  have hdot : '.' ∉ e.text := fun hmem => e.plain '.' hmem (by decide)
  have htext : e.text <:+ cs := (List.suffix_cons '.' e.text).trans h
  refine decide_eq_false fun hparent => hdot ?_
  have hdots : Utf8.encode ['.'] <:+ Utf8.encode cs := by
    have hprefix : [0x2e, 0x2e] <+: (Utf8.encode cs).reverse :=
      hparent ▸ List.takeWhile_prefix _
    exact (List.suffix_cons 0x2e _).trans (List.reverse_prefix.mp hprefix)
  have hlast : ['.'] <:+ e.text :=
    List.suffix_of_suffix_length_le (Utf8.encode_suffix_iff.mp hdots) htext
      (List.length_pos_of_ne_nil e.ne_nil)
  exact hlast.subset List.mem_cons_self

theorem matches?_glob {text : String} :
    e.glob.matches? (Utf8.encodeString text) = true ↔ e.suffix <:+ text.toList := by
  have htokens : matchesTokens e.glob.tokens (Utf8.encodeString text) = true ↔
      e.suffix <:+ text.toList :=
    (matchesTokens_many_literals e.suffix _).trans Utf8.encode_suffix_iff
  rw [matches?, Bool.and_eq_true, htokens]
  refine ⟨And.right, fun h => ⟨?_, h⟩⟩
  rw [Utf8.encodeString, endsInParent_eq_false h, Bool.and_false]
  rfl

end Extension

end BuildWatch.Glob
