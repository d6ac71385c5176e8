import BuildWatch.Json.Reader
import BuildWatch.Proofs.Json.Numeral

namespace BuildWatch.Json

def Blank (bs : Bytes) : Prop := ∀ b ∈ bs, isBlank b = true

theorem blank_nil : Blank [] := nofun

section Strings

open Characters

def Hex (digits : Bytes) (n : Nat) : Prop := digits.length = 4 ∧ hexValue? digits = some n

inductive Escape : Bytes → Char → Prop
  | short {letter b : UInt8} (h : shortEscape? letter = some b) :
      Escape [0x5c, letter] (Char.ofNat b.toNat)
  | unit {digits : Bytes} {n : Nat} (hn : Hex digits n) (hhigh : isHighSurrogate n = false)
      (hlow : isLowSurrogate n = false) : Escape (0x5c :: 0x75 :: digits) (Char.ofNat n)
  | pair {digits digits' : Bytes} {high low : Nat} (hh : Hex digits high) (hl : Hex digits' low)
      (hhigh : isHighSurrogate high = true) (hlow : isLowSurrogate low = true) :
      Escape (0x5c :: 0x75 :: (digits ++ 0x5c :: 0x75 :: digits'))
        (Char.ofNat (joinSurrogates high low))

/-- A character of a string stands for itself, unless it is a control character, a quote or a
backslash, or it is escaped. -/
inductive Character : Bytes → Char → Prop
  | plain {c : Char} (hcontrol : 0x20 ≤ c.toNat) (hquote : c ≠ '"') (hbackslash : c ≠ '\\') :
      Character (String.utf8EncodeChar c) c
  | escape {text : Bytes} {c : Char} (h : Escape text c) : Character text c

inductive Characters.Text : Bytes → List Char → Prop
  | nil : Text [] []
  | cons {text texts : Bytes} {c : Char} {cs : List Char} (h : Character text c)
      (hs : Text texts cs) : Text (text ++ texts) (c :: cs)

def Quoted (bs : Bytes) (s : String) : Prop :=
  ∃ text, Text text s.toList ∧ bs = 0x22 :: (text ++ [0x22])

end Strings

inductive Scalar : Bytes → Value → Prop
  | null : Scalar (Utf8.encodeString "null") .null
  | true : Scalar (Utf8.encodeString "true") (.bool .true)
  | false : Scalar (Utf8.encodeString "false") (.bool .false)
  | string {bs : Bytes} {s : String} (h : Quoted bs s) : Scalar bs (.string s)
  | number (n : Numeral) {v : Value} (h : n.value? = some v) : Scalar n.text v

section Lists

variable {α : Type} (item : Bytes → α → Prop)

def Padded (bs : Bytes) (a : α) : Prop :=
  ∃ before text after, Blank before ∧ item text a ∧ Blank after ∧ bs = before ++ (text ++ after)

inductive Separated : Bytes → List α → Prop
  | one {text : Bytes} {a : α} (h : item text a) : Separated text [a]
  | cons {text texts : Bytes} {a : α} {as : List α} (h : item text a) (hs : Separated texts as) :
      Separated (text ++ 0x2c :: texts) (a :: as)

inductive Enclosed (opening closing : UInt8) : Bytes → List α → Prop
  | empty {bs : Bytes} (h : Blank bs) : Enclosed opening closing (opening :: (bs ++ [closing])) []
  | full {texts : Bytes} {as : List α} (hs : Separated (Padded item) texts as) :
      Enclosed opening closing (opening :: (texts ++ [closing])) as

end Lists

def Member (item : Bytes → Value → Prop) (bs : Bytes) (m : String × Value) : Prop :=
  ∃ name before after text, Quoted name m.1 ∧ Blank before ∧ Blank after ∧ item text m.2 ∧
    bs = name ++ (before ++ 0x3a :: (after ++ text))

/-- The texts of the values in which lists and objects are nested at most `depth` deep. -/
def Spelled : (depth : Nat) → Bytes → Value → Prop
  | 0, bs, v => Scalar bs v
  | depth + 1, bs, v =>
    Scalar bs v ∨
      (∃ items, Enclosed (Spelled depth) 0x5b 0x5d bs items ∧ v = .array items) ∨
      ∃ members, Enclosed (Member (Spelled depth)) 0x7b 0x7d bs members ∧ v = .object members

def IsText (bs : Bytes) (v : Value) : Prop := Padded (Spelled maxDepth) bs v

section Scalars

theorem Numeral.exists_float {n : Numeral} {v : Value} (h : n.double? = some v) :
    ∃ x, v = .float x := by
  have hraised : ∀ {negative significand base down size},
      Number.raised? negative significand base down size = some v → ∃ x, v = .float x := by
    intro negative significand base down size h
    unfold Number.raised? at h
    split at h
    · split at h
      · cases h
      · exact ⟨_, (Option.some.inj h).symm⟩
    · obtain ⟨x, -, rfl⟩ := Option.map_eq_some_iff.mp h
      exact ⟨x, rfl⟩
  unfold double? at h
  split at h
  · exact ⟨_, (Option.some.inj h).symm⟩
  · dsimp only at h
    unfold Number.scaled? at h
    split at h
    · obtain ⟨x, -, rfl⟩ := Option.map_eq_some_iff.mp h
      exact ⟨x, rfl⟩
    · exact hraised h

/-- Only a whole number of 64 bits is written as one: not by a fraction or an exponent, and not as
minus zero. -/
theorem Numeral.value?_eq_int_iff {n : Numeral} {i : Int} :
    n.value? = some (.int i) ↔
      n.integer? = some i ∧ -0x8000000000000000 ≤ i ∧ i ≤ 0xffffffffffffffff := by
  have hdouble : n.double? ≠ some (.int i) := by
    intro h
    obtain ⟨x, hx⟩ := exists_float h
    cases hx
  unfold value?
  cases h : n.integer? with
  | none => exact ⟨fun h => absurd h hdouble, nofun⟩
  | some j =>
    dsimp only
    split
    · next hj =>
      simp only [Option.some.injEq, Value.int.injEq]
      exact ⟨fun h => ⟨h, h ▸ hj⟩, fun h => h.1⟩
    · next hj =>
      refine ⟨fun h => absurd h hdouble, fun ⟨h, hi⟩ => ?_⟩
      obtain rfl := Option.some.inj h
      exact absurd hi hj

theorem Scalar.ne_nested {text : Bytes} {v : Value} (h : Scalar text v) :
    (∀ items, v ≠ .array items) ∧ ∀ members, v ≠ .object members := by
  cases h with
  | number n h =>
    cases hi : n.integer? with
    | none =>
      rw [Numeral.value?, hi] at h
      obtain ⟨x, rfl⟩ := Numeral.exists_float h
      exact ⟨nofun, nofun⟩
    | some i =>
      simp only [Numeral.value?, hi] at h
      split at h
      · obtain rfl := Option.some.inj h
        exact ⟨nofun, nofun⟩
      · obtain ⟨x, rfl⟩ := Numeral.exists_float h
        exact ⟨nofun, nofun⟩
  | null | true | false | string => exact ⟨nofun, nofun⟩

end Scalars

end BuildWatch.Json
