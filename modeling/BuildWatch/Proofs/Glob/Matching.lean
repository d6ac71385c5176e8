import BuildWatch.Glob.Matching
import Mathlib.Data.List.Forall2
import Mathlib.Data.List.Infix

namespace BuildWatch.Glob

theorem contains_single {a b : UInt8} : (ByteSet.single a).contains b = true ↔ b = a := by
  rw [ByteSet.single, ByteSet.contains]
  simp only [List.any_cons, List.any_nil, Bool.or_false, Bool.bne_false, Bool.and_eq_true,
    decide_eq_true_eq]
  exact ⟨fun h => UInt8.le_antisymm h.2 h.1, fun h => h ▸ ⟨UInt8.le_refl b, UInt8.le_refl b⟩⟩

/-- Some places of a text are those that are followed by something in `P`. -/
def Marks (bs : Bytes) (places : Places) (P : Bytes → Prop) : Prop :=
  List.Forall₂ (fun m rest => m = true ↔ P rest) places bs.tails

section Marks

open Places

variable {bs : Bytes} {places : Places} {P Q : Bytes → Prop}

theorem marks_nil_iff : Marks [] places P ↔ ∃ m, places = [m] ∧ (m = true ↔ P []) := by
  rw [Marks, List.tails, List.forall₂_cons_right_iff]
  simp only [List.forall₂_nil_right_iff]
  exact ⟨fun ⟨m, _, hm, hnil, h⟩ => ⟨m, hnil ▸ h, hm⟩, fun ⟨m, h, hm⟩ => ⟨m, [], hm, rfl, h⟩⟩

theorem marks_cons_iff {b : UInt8} : Marks (b :: bs) places P ↔
    ∃ m more, places = m :: more ∧ (m = true ↔ P (b :: bs)) ∧ Marks bs more P := by
  rw [Marks, List.tails, List.forall₂_cons_right_iff]
  exact ⟨fun ⟨m, more, hm, h, he⟩ => ⟨m, more, he, hm, h⟩,
    fun ⟨m, more, he, hm, h⟩ => ⟨m, more, hm, h, he⟩⟩

theorem Marks.congr (h : Marks bs places P) (hPQ : ∀ rest, P rest ↔ Q rest) :
    Marks bs places Q :=
  List.Forall₂.imp (fun _ rest hm => hm.trans (hPQ rest)) h

theorem Marks.front (h : Marks bs places P) :
    ∃ m more, places = m :: more ∧ (m = true ↔ P bs) := by
  cases bs with
  | nil =>
    obtain ⟨m, he, hm⟩ := marks_nil_iff.mp h
    exact ⟨m, [], he, hm⟩
  | cons b bs =>
    obtain ⟨m, more, he, hm, -⟩ := marks_cons_iff.mp h
    exact ⟨m, more, he, hm⟩

theorem marks_atEnd (bs : Bytes) : Marks bs (atEnd bs) (· = []) := by
  induction bs with
  | nil => exact marks_nil_iff.mpr ⟨true, rfl, by simp⟩
  | cons b bs ih => exact marks_cons_iff.mpr ⟨false, atEnd bs, rfl, by simp, ih⟩

theorem marks_beforeByte (set : ByteSet) (h : Marks bs places P) :
    Marks bs (beforeByte set bs places) fun rest =>
      ∃ b more, rest = b :: more ∧ set.contains b = true ∧ P more := by
  induction bs generalizing places with
  | nil => exact marks_nil_iff.mpr ⟨false, rfl, by simp⟩
  | cons b bs ih =>
    obtain ⟨m, places, rfl, -, h⟩ := marks_cons_iff.mp h
    obtain ⟨m, more, rfl, hm⟩ := h.front
    refine marks_cons_iff.mpr ⟨set.contains b && m, beforeByte set bs (m :: more), rfl, ?_, ih h⟩
    simp [hm]

theorem marks_beforeRun (h : Marks bs places P) :
    Marks bs (beforeRun places) fun rest => ∃ more, more <:+ rest ∧ P more := by
  induction bs generalizing places with
  | nil =>
    obtain ⟨m, rfl, hm⟩ := marks_nil_iff.mp h
    exact marks_nil_iff.mpr ⟨m || false, rfl, by simp [hm]⟩
  | cons b bs ih =>
    obtain ⟨m, places, rfl, hm, h⟩ := marks_cons_iff.mp h
    obtain ⟨m', more, hmore, hm'⟩ := (ih h).front
    refine marks_cons_iff.mpr ⟨m || (beforeRun places).headD false, beforeRun places, rfl, ?_, ih h⟩
    rw [hmore, List.headD_cons, Bool.or_eq_true, hm, hm']
    simp only [List.suffix_cons_iff, or_and_right, exists_or, exists_eq_left]

theorem marks_word (word : Bytes) (h : Marks bs places P) :
    Marks bs (word.foldr (fun b next => beforeByte (.single b) bs next) places) fun rest =>
      ∃ more, rest = word ++ more ∧ P more := by
  induction word with
  | nil => exact h.congr fun rest => by simp
  | cons b word ih =>
    refine (marks_beforeByte (.single b) ih).congr fun rest => ?_
    simp only [contains_single]
    constructor
    · rintro ⟨_, _, rfl, rfl, more, rfl, hP⟩
      exact ⟨more, rfl, hP⟩
    · rintro ⟨more, rfl, hP⟩
      exact ⟨b, word ++ more, rfl, rfl, more, rfl, hP⟩

theorem marks_literals (cs : List Char) (h : Marks bs places P) :
    Marks bs (beforeAll bs (cs.map .literal) places) fun rest =>
      ∃ more, rest = Utf8.encode cs ++ more ∧ P more := by
  induction cs with
  | nil =>
    rw [List.map_nil, beforeAll]
    exact h.congr fun rest => by simp [Utf8.encode]
  | cons c cs ih =>
    rw [List.map_cons, beforeAll, Token.before]
    refine (marks_word (String.utf8EncodeChar c) ih).congr fun rest => ?_
    constructor
    · rintro ⟨_, rfl, more, rfl, hP⟩
      exact ⟨more, (List.append_assoc ..).symm, hP⟩
    · rintro ⟨more, rfl, hP⟩
      exact ⟨_, List.append_assoc .., more, rfl, hP⟩

end Marks

theorem matchesTokens_many_literals (cs : List Char) (bs : Bytes) :
    matchesTokens (.many :: cs.map .literal) bs = true ↔ Utf8.encode cs <:+ bs := by
  have hmarks : Marks bs (beforeAll bs (.many :: cs.map .literal) (Places.atEnd bs)) fun rest =>
      Utf8.encode cs <:+ rest := by
    rw [beforeAll, Token.before]
    refine (marks_beforeRun (marks_literals cs (marks_atEnd bs))).congr fun rest => ?_
    constructor
    · rintro ⟨_, hsuffix, _, rfl, rfl⟩
      rwa [List.append_nil] at hsuffix
    · exact fun hsuffix => ⟨_, hsuffix, [], (List.append_nil _).symm, rfl⟩
  obtain ⟨m, more, hplaces, hm⟩ := hmarks.front
  rw [matchesTokens, hplaces, List.headD_cons, hm]

end BuildWatch.Glob
