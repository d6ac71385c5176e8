import BuildWatch.Record
import Mathlib.Data.List.Perm.Basic
import Mathlib.Data.List.TakeWhile
import Mathlib.Order.Defs.LinearOrder

namespace BuildWatch

namespace Position

variable {p q : Position}

theorem le_iff : p ≤ q ↔ p.line < q.line ∨ p.line = q.line ∧ p.column ≤ q.column := by
  change ((compareOn line p q).then (compareOn column p q)).isLE = true ↔ _
  rw [Ordering.isLE_then_iff_or]
  simp only [compareOn, Std.compare_eq_lt, Std.compare_eq_iff_eq, Std.isLE_compare]

theorem lt_iff : p < q ↔ p.line < q.line ∨ p.line = q.line ∧ p.column < q.column := by
  change (compareOn line p q).then (compareOn column p q) = .lt ↔ _
  rw [Ordering.then_eq_lt]
  simp only [compareOn, Std.compare_eq_lt, Std.compare_eq_iff_eq]

theorem le_of_parts (hline : p.line ≤ q.line) (hcolumn : p.column ≤ q.column) : p ≤ q := by
  rw [le_iff]
  rcases UInt32.lt_or_eq_of_le hline with hlt | heq
  · exact .inl hlt
  · exact .inr ⟨heq, hcolumn⟩

theorem le_refl (p : Position) : p ≤ p := le_of_parts (UInt32.le_refl _) (UInt32.le_refl _)

theorem le_documentEnd (p : Position) : p ≤ documentEnd := by
  have hlargest : ∀ n : UInt32, n ≤ 0xffffffff := fun n => by
    rw [UInt32.le_iff_toNat_le]
    exact Nat.le_of_lt_succ n.toNat_lt
  exact le_of_parts (hlargest p.line) (hlargest p.column)

end Position

namespace Range

section Words

/-- The number before, where the smallest one has none and stays as it is. -/
def before (n : Int64) : Int64 := if n = Int64.minValue then n else n - 1

def narrow (n : Int64) : UInt32 :=
  if n < 0 then 0 else if 0xffffffff < n then 0xffffffff else n.toUInt64.toUInt32

theorem toNat_clamp (n : Int) : ((clamp n).toNat : Int) = min (max n 0) 0xffffffff := by
  rw [clamp, UInt32.toNat_ofNat_of_lt' (by rw [UInt32.size]; omega)]
  omega

theorem clamp_mono {m n : Int} (h : m ≤ n) : clamp m ≤ clamp n := by
  have hm := toNat_clamp m
  have hn := toNat_clamp n
  rw [UInt32.le_iff_toNat_le]
  omega

theorem clamp_lt {m n : Int} (h : m < n) (hm : m < 0xffffffff) (hn : 0 < n) :
    clamp m < clamp n := by
  have hm := toNat_clamp m
  have hn := toNat_clamp n
  rw [UInt32.lt_iff_toNat_lt]
  omega

theorem toInt_before (n : Int64) :
    (before n).toInt = max (n.toInt - 1) Int64.minValue.toInt := by
  have hsmallest : Int64.minValue.toInt = -2 ^ 63 := by decide
  have hle := n.le_toInt
  have hlt := n.toInt_lt
  rw [before]
  split
  · next h =>
    rw [h]
    decide
  · next h =>
    have hne : n.toInt ≠ Int64.minValue.toInt := fun heq => h (Int64.toInt_inj.mp heq)
    have hone : (1 : Int64).toInt = 1 := by decide
    rw [Int64.toInt_sub, hone, Int.bmod_eq_of_le (by omega) (by omega)]
    omega

theorem clamp_toInt (n : Int64) : clamp n.toInt = narrow n := by
  have hzero : (0 : Int64).toInt = 0 := by decide
  have hlargest : (0xffffffff : Int64).toInt = 0xffffffff := by decide
  have hclamp := toNat_clamp n.toInt
  rw [← UInt32.toNat_inj, narrow]
  simp only [Int64.lt_iff_toInt_lt, hzero, hlargest]
  split
  · have hnat : (0 : UInt32).toNat = 0 := rfl
    omega
  · split
    · have hnat : (0xffffffff : UInt32).toNat = 0xffffffff := rfl
      omega
    · next hnonneg _ =>
      have hle : 0 ≤ n := by
        rw [Int64.le_iff_toInt_le, hzero]
        omega
      have hnat : n.toNatClampNeg = n.toInt.toNat := rfl
      rw [UInt64.toNat_toUInt32, Int64.toNat_toUInt64_of_le hle, hnat]
      omega

/-- What is below the smallest number is below every place, so it does not matter. -/
theorem clamp_toInt_sub_one (n : Int64) : clamp (n.toInt - 1) = narrow (before n) := by
  have hsmallest : Int64.minValue.toInt = -2 ^ 63 := by decide
  have hbefore := toInt_before n
  have hclamp := toNat_clamp (n.toInt - 1)
  have hclamp' := toNat_clamp (before n).toInt
  rw [← clamp_toInt, ← UInt32.toNat_inj]
  omega

end Words

end Range

namespace SourceTest

def Undotted (e : String) (bare : List Char) : Prop :=
  ∃ n, e.toList = List.replicate n '.' ++ bare ∧ bare.head? ≠ some '.'

/-- A file text ends with a dot and an extension, in front of which dots do not count. -/
def EndsWith (file e : String) : Prop :=
  ∃ bare, Undotted e bare ∧ bare ≠ [] ∧ '.' :: bare <:+ file.toList

/-- Lists of extensions that differ only in what does not count: their order, how often there is an
extension, dots in front of one, and those that consist of dots alone. -/
inductive Alike : List String → List String → Prop where
  | permuted {es es' : List String} : es.Perm es' → Alike es es'
  | repeated {e : String} {es : List String} : e ∈ es → Alike es (e :: es)
  | dotted (e : String) (es : List String) : Alike (e :: es) (("." ++ e) :: es)
  | dots {e : String} (es : List String) : (∀ c ∈ e.toList, c = '.') → Alike es (e :: es)
  | symm {es es' : List String} : Alike es es' → Alike es' es
  | trans {es es' es'' : List String} : Alike es es' → Alike es' es'' → Alike es es''

variable {file e : String} {es es' : List String} {bare : List Char}

theorem undotted_iff : Undotted e bare ↔ e.toList.dropWhile (· = '.') = bare := by
  constructor
  · rintro ⟨n, hn, hbare⟩
    have hdots : ∀ c ∈ List.replicate n '.', decide (c = '.') = true :=
      fun c hc => decide_eq_true (List.eq_of_mem_replicate hc)
    rw [hn, List.dropWhile_append_of_pos hdots]
    cases bare with
    | nil => rfl
    | cons c bare =>
      exact List.dropWhile_cons_of_neg fun hc => hbare (congrArg some (of_decide_eq_true hc))
  · rintro rfl
    refine ⟨(e.toList.takeWhile (· = '.')).length, ?_, fun hdot => ?_⟩
    · have hdots : e.toList.takeWhile (· = '.') =
          List.replicate (e.toList.takeWhile (· = '.')).length '.' :=
        List.eq_replicate_iff.mpr ⟨rfl, fun c hc => by simpa using List.mem_takeWhile_imp hc⟩
      rw [← hdots, List.takeWhile_append_dropWhile]
    · have hhead := List.head?_dropWhile_not (fun c => decide (c = '.')) e.toList
      rw [hdot] at hhead
      cases hhead

theorem mem_suffixes {s : List Char} :
    s ∈ suffixes es ↔ ∃ e ∈ es, ∃ bare, Undotted e bare ∧ bare ≠ [] ∧ s = '.' :: bare := by
  simp only [suffixes, List.mem_filterMap, List.mem_map, undotted_iff, exists_exists_and_eq_and]
  refine exists_congr fun e => and_congr_right fun _ => ?_
  cases h : e.toList.dropWhile (· = '.') with
  | nil => simp
  | cons c bare => simp [eq_comm]

theorem ofExtensions_iff : ofExtensions es file = true ↔ ∃ e ∈ es, EndsWith file e := by
  simp only [ofExtensions, List.any_eq_true, mem_suffixes, List.isSuffixOf_iff_suffix, EndsWith]
  constructor
  · rintro ⟨_, ⟨e, he, bare, hbare, hne, rfl⟩, hsuffix⟩
    exact ⟨e, he, bare, hbare, hne, hsuffix⟩
  · rintro ⟨e, he, bare, hbare, hne, hsuffix⟩
    exact ⟨_, ⟨e, he, bare, hbare, hne, rfl⟩, hsuffix⟩

theorem undotted_dot : Undotted ("." ++ e) bare ↔ Undotted e bare := by
  rw [undotted_iff, undotted_iff, String.toList_append]
  rfl

theorem not_endsWith_dots (h : ∀ c ∈ e.toList, c = '.') : ¬EndsWith file e := by
  rintro ⟨bare, hbare, hne, -⟩
  rw [undotted_iff, List.dropWhile_eq_nil_iff.mpr fun c hc => decide_eq_true (h c hc)] at hbare
  exact hne hbare.symm

theorem Alike.endsWith_iff (h : Alike es es') (file : String) :
    (∃ e ∈ es, EndsWith file e) ↔ ∃ e ∈ es', EndsWith file e := by
  induction h with
  | permuted hperm => exact exists_congr fun e => and_congr_left fun _ => hperm.mem_iff
  | repeated hmem =>
    rw [List.exists_mem_cons_iff]
    exact ⟨.inr, fun h => h.elim (fun he => ⟨_, hmem, he⟩) id⟩
  | dotted e es =>
    have hdot : EndsWith file ("." ++ e) ↔ EndsWith file e := by
      simp only [EndsWith, undotted_dot]
    rw [List.exists_mem_cons_iff, List.exists_mem_cons_iff, hdot]
  | dots es hdots =>
    rw [List.exists_mem_cons_iff]
    exact (or_iff_right (not_endsWith_dots hdots)).symm
  | symm _ ih => exact ih.symm
  | trans _ _ ih ih' => exact ih.trans ih'

theorem Alike.ofExtensions_eq (h : Alike es es') : ofExtensions es = ofExtensions es' := by
  funext file
  rw [Bool.eq_iff_iff, ofExtensions_iff, ofExtensions_iff]
  exact h.endsWith_iff file

end SourceTest

namespace Range

theorem start_ofRecord (isPrimary : SourceTest) (r : Record) :
    (ofRecord isPrimary r).start = ⟨clamp (r.line.toInt - 1), clamp r.column.toInt⟩ := by
  rw [ofRecord]
  split <;> rfl

theorem stop_ofRecord (isPrimary : SourceTest) (r : Record) :
    (ofRecord isPrimary r).stop =
      if isPrimary r.file then (ofRecord isPrimary r).start else .documentEnd := by
  rw [ofRecord]
  split <;> rfl

/-- A range starts at the place that is reported, or at the nearest one that positions can hold,
and 64 bits are enough to find it. It does not end before it starts. The start grows with the line,
and within a line with the column. A greater line comes later whatever the columns are, unless
positions cannot tell the two lines apart. The range is a point in a file with one of the
extensions, and goes to the end of the document in any other. What does not count in a list of
extensions changes no range. -/
theorem ofRecord_extensions (es : List String) (r : Record) :
    let range := ofRecord (.ofExtensions es) r
    (range.start.line.toNat : Int) = min (max (r.line.toInt - 1) 0) 0xffffffff ∧
    (range.start.column.toNat : Int) = min (max r.column.toInt 0) 0xffffffff ∧
    range.start = ⟨narrow (before r.line), narrow r.column⟩ ∧
    range.start ≤ range.stop ∧
    (∀ es' r', let range' := ofRecord (.ofExtensions es') r'
      (r.line ≤ r'.line → range.start.line ≤ range'.start.line) ∧
      (r.line ≤ r'.line → r.column ≤ r'.column → range.start ≤ range'.start) ∧
      (r.line < r'.line → r.line.toInt ≤ 0xffffffff → 1 < r'.line.toInt →
        range.start < range'.start)) ∧
    ((∃ e ∈ es, SourceTest.EndsWith r.file e) → range.stop = range.start) ∧
    ((¬∃ e ∈ es, SourceTest.EndsWith r.file e) →
      range.stop = .documentEnd ∧ ∀ p : Position, p ≤ range.stop) ∧
    ∀ es', SourceTest.Alike es es' → ofRecord (.ofExtensions es') r = range := by
  intro range
  have hstart := start_ofRecord (.ofExtensions es) r
  have hstop := stop_ofRecord (.ofExtensions es) r
  refine ⟨?_, ?_, ?_, ?_, fun es' r' => ?_, fun h => ?_, fun h => ?_, fun es' h => ?_⟩
  · rw [hstart]
    exact toNat_clamp _
  · rw [hstart]
    exact toNat_clamp _
  · rw [hstart, clamp_toInt_sub_one, clamp_toInt]
  · rw [hstop]
    split
    · exact Position.le_refl _
    · exact Position.le_documentEnd _
  · intro range'
    have hstart' := start_ofRecord (.ofExtensions es') r'
    have hline : r.line ≤ r'.line → range.start.line ≤ range'.start.line := fun h => by
      rw [hstart, hstart']
      exact clamp_mono (Int.sub_le_sub_right (Int64.le_iff_toInt_le.mp h) 1)
    refine ⟨hline, fun h hcolumn => Position.le_of_parts (hline h) ?_, fun h hsmall hlarge => ?_⟩
    · rw [hstart, hstart']
      exact clamp_mono (Int64.le_iff_toInt_le.mp hcolumn)
    · rw [Int64.lt_iff_toInt_lt] at h
      rw [hstart, hstart', Position.lt_iff]
      exact .inl (clamp_lt (by omega) (by omega) (by omega))
  · rw [hstop, if_pos (SourceTest.ofExtensions_iff.mpr h)]
  · rw [hstop, if_neg (SourceTest.ofExtensions_iff.not.mpr h)]
    exact ⟨rfl, Position.le_documentEnd⟩
  · rw [← h.ofExtensions_eq]

theorem ofRecord_extensions_of_extremes :
    let low : Record := ⟨"/p/A.hs", Int64.minValue, Int64.minValue, "", []⟩
    let high : Record := ⟨"/p/A.yaml", Int64.maxValue, Int64.maxValue, "", []⟩
    let isPrimary := SourceTest.ofExtensions ["...", ".hs"]
    (ofRecord isPrimary low).start = ⟨0, 0⟩ ∧
      (ofRecord isPrimary low).stop = (ofRecord isPrimary low).start ∧
      (ofRecord isPrimary low).start < (ofRecord isPrimary high).start ∧
      (ofRecord isPrimary high).stop = .documentEnd ∧
      ofRecord (.ofExtensions ["hs", "hs"]) low = ofRecord isPrimary low := by
  intro low high isPrimary
  obtain ⟨-, -, hstart, -, hgreater, hpoint, -, hsame⟩ := ofRecord_extensions ["...", ".hs"] low
  obtain ⟨-, -, -, -, -, -, htail, -⟩ := ofRecord_extensions ["...", ".hs"] high
  have hprimary := SourceTest.ofExtensions_iff.mp (by decide : isPrimary low.file = true)
  have hother := SourceTest.ofExtensions_iff.not.mp (by decide : ¬isPrimary high.file = true)
  have halike : SourceTest.Alike ["...", ".hs"] ["hs", "hs"] :=
    (SourceTest.Alike.dots [".hs"] (by simp)).symm.trans
      ((SourceTest.Alike.dotted "hs" []).symm.trans (.repeated List.mem_cons_self))
  exact ⟨hstart.trans (by decide), hpoint hprimary,
    (hgreater _ high).2.2 (by decide) (by decide) (by decide), (htail hother).1, hsame _ halike⟩

end Range

end BuildWatch
