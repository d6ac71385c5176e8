import BuildWatch.Json.Shape
import BuildWatch.Proofs.Except
import BuildWatch.Proofs.Json.Grammar

namespace BuildWatch.Json

section Written

def Written (v : Value) : Prop := ∃ depth text, Spelled depth text v

theorem IsText.written {payload : Bytes} {v : Value} (h : IsText payload v) : Written v := by
  obtain ⟨_, text, _, _, htext, _⟩ := h
  exact ⟨maxDepth, text, htext⟩

theorem Enclosed.exists_text {α : Type} {item : Bytes → α → Prop} {opening closing : UInt8}
    {text : Bytes} {as : List α} (h : Enclosed item opening closing text as) {a : α} (ha : a ∈ as) :
    ∃ text, item text a := by
  cases h with
  | empty => cases ha
  | full hs =>
    obtain ⟨_, _, text, _, _, h, _⟩ : ∃ text, Padded item text a := by
      induction hs with
      | one h =>
        obtain rfl := List.mem_singleton.mp ha
        exact ⟨_, h⟩
      | cons h hs ih =>
        rcases List.mem_cons.mp ha with rfl | ha
        · exact ⟨_, h⟩
        · exact ih ha
    exact ⟨text, h⟩

theorem Written.item {items : List Value} (h : Written (.array items)) {v : Value}
    (hv : v ∈ items) : Written v := by
  obtain ⟨depth, text, h⟩ := h
  cases depth with
  | zero => exact absurd rfl (Scalar.ne_nested h |>.1 items)
  | succ depth =>
    rcases h with h | ⟨items', h, he⟩ | ⟨members, -, he⟩
    · exact absurd rfl (h.ne_nested.1 items)
    · obtain rfl := Value.array.inj he
      obtain ⟨text, htext⟩ := h.exists_text hv
      exact ⟨depth, text, htext⟩
    · cases he

theorem Written.member {members : List (String × Value)} (h : Written (.object members))
    {m : String × Value} (hm : m ∈ members) : Written m.2 := by
  obtain ⟨depth, text, h⟩ := h
  cases depth with
  | zero => exact absurd rfl (Scalar.ne_nested h |>.2 members)
  | succ depth =>
    rcases h with h | ⟨items, -, he⟩ | ⟨members', h, he⟩
    · exact absurd rfl (h.ne_nested.2 members)
    · cases he
    · obtain rfl := Value.object.inj he
      obtain ⟨_, _, _, _, text, -, -, -, htext, -⟩ := h.exists_text hm
      exact ⟨depth, text, htext⟩

theorem Written.le_int {i : Int} (h : Written (.int i)) : -0x8000000000000000 ≤ i := by
  have hscalar : ∀ {text}, Scalar text (.int i) → -0x8000000000000000 ≤ i := by
    intro text h
    cases h with
    | number n h => exact (Numeral.value?_eq_int_iff.mp h).2.1
  obtain ⟨depth, text, h⟩ := h
  cases depth with
  | zero => exact hscalar h
  | succ depth =>
    rcases h with h | ⟨_, -, he⟩ | ⟨_, -, he⟩
    · exact hscalar h
    · cases he
    · cases he

end Written

namespace Value

def Last (members : List (String × Value)) (name : String) (v : Value) : Prop :=
  ∃ before after, members = before ++ (name, v) :: after ∧ ∀ m ∈ after, m.1 ≠ name

def Absent (members : List (String × Value)) (name : String) : Prop := ∀ m ∈ members, m.1 ≠ name

variable {members : List (String × Value)} {name : String} {v : Value}

theorem member?_eq_some_iff : member? members name = some v ↔ Last members name v := by
  rw [member?, Option.map_eq_some_iff]
  constructor
  · rintro ⟨⟨name', v'⟩, h, rfl⟩
    obtain ⟨hname, as, bs, hsplit, has⟩ := List.find?_eq_some_iff_append.mp h
    obtain rfl := of_decide_eq_true hname
    refine ⟨bs.reverse, as.reverse, ?_, ?_⟩
    · rw [← List.reverse_reverse members, hsplit]
      simp
    · simpa using has
  · rintro ⟨before, after, rfl, hafter⟩
    refine ⟨(name, v), List.find?_eq_some_iff_append.mpr ⟨by simp, after.reverse, before.reverse, ?_⟩,
      rfl⟩
    simpa using hafter

theorem member?_eq_none_iff : member? members name = none ↔ Absent members name := by
  simp [member?, Absent]

theorem Last.mem (h : Last members name v) : (name, v) ∈ members := by
  obtain ⟨before, after, rfl, -⟩ := h
  exact List.mem_append_right _ List.mem_cons_self

variable {α : Type} {read : Value → Shaped α} {a : α}

theorem field?_eq_some_iff :
    field? members name read = .ok (some a) ↔ ∃ v, Last members name v ∧ read v = .ok a := by
  cases h : member? members name with
  | none =>
    simp only [field?, h]
    refine ⟨nofun, fun ⟨v, hv, _⟩ => ?_⟩
    rw [member?_eq_some_iff.mpr hv] at h
    cases h
  | some v =>
    simp only [field?, h, ← member?_eq_some_iff, Option.some.injEq, exists_eq_left']
    cases read v <;> simp [Except.map]

theorem field?_eq_none_iff : field? members name read = .ok none ↔ Absent members name := by
  cases h : member? members name with
  | none => simp only [field?, h, ← member?_eq_none_iff]
  | some v =>
    simp only [field?, h, ← member?_eq_none_iff]
    cases read v <;> simp [Except.map]

theorem takeFieldOr_eq_ok_iff {default : α} {items rest : List Value} :
    takeFieldOr default read items = .ok (a, rest) ↔
      (items = [] ∧ a = default ∧ rest = []) ∨ ∃ v, items = v :: rest ∧ read v = .ok a := by
  cases items with
  | nil => simp [takeFieldOr, eq_comm]
  | cons v items =>
    cases h : read v with
    | error e => simp [takeFieldOr, h, Except.map]
    | ok a' => simp [takeFieldOr, h, Except.map, and_comm]

theorem toText_eq_ok_iff {s : String} : toText v = .ok s ↔ v = .string s := by
  cases v <;> simp [toText]

theorem toTexts_eq_ok_iff {texts : List String} :
    toTexts v = .ok texts ↔ v = .array (texts.map .string) := by
  have hall : ∀ items : List Value,
      items.mapM toText = .ok texts ↔ items = texts.map .string := by
    intro items
    simp only [mapM_eq_ok_iff, toText_eq_ok_iff]
    rw [← List.forall₂_eq_eq_eq, List.forall₂_map_right_iff]
  cases v <;> simp [toTexts, hall]

theorem toInt64_eq_ok_iff (hv : Written v) {n : Int64} :
    toInt64 v = .ok n ↔ v = .int n.toInt := by
  cases v with
  | int i =>
    have hlow := hv.le_int
    have hmax : Int64.maxValue.toInt = 0x7fffffffffffffff := rfl
    simp only [toInt64, Value.int.injEq]
    split
    · next hle =>
      have hi : (Int64.ofInt i).toInt = i := Int64.toInt_ofInt_of_le (by omega) (by omega)
      constructor
      · intro h
        rw [← Except.ok.inj h, hi]
      · rintro rfl
        rw [Int64.ofInt_toInt]
    · next hlt =>
      refine ⟨nofun, ?_⟩
      rintro rfl
      exact absurd n.toInt_le hlt
  | null | bool | float | string | array | object => simp [toInt64]

end Value

end BuildWatch.Json
