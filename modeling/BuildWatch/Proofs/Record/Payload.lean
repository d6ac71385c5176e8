import BuildWatch.Proofs.Json.Reader
import BuildWatch.Proofs.Json.Shape
import BuildWatch.Record.Payload

namespace BuildWatch

open Json Json.Value

namespace Record

/-- The members of an object that is a record. Others do not count, nor does their order. -/
structure HasMembers (members : List (String × Value)) (r : Record) : Prop where
  file : Last members "file" (.string r.file)
  line : Last members "line" (.int r.line.toInt)
  column : Last members "column" (.int r.column.toInt)
  extras : Last members "extras" (.string r.extras) ∨ Absent members "extras" ∧ r.extras = ""
  details : Last members "details" (.array (r.details.map .string)) ∨
    Absent members "details" ∧ r.details = []

/-- A record is an object or the list of its fields, of which the last ones can be left out. -/
inductive Shape : Value → Record → Prop
  | members {members : List (String × Value)} {r : Record} (h : HasMembers members r) :
      Shape (.object members) r
  | three (file : String) (line column : Int64) :
      Shape (.array [.string file, .int line.toInt, .int column.toInt]) ⟨file, line, column, "", []⟩
  | four (file : String) (line column : Int64) (extras : String) :
      Shape (.array [.string file, .int line.toInt, .int column.toInt, .string extras])
        ⟨file, line, column, extras, []⟩
  | five (file : String) (line column : Int64) (extras : String) (details : List String) :
      Shape (.array [.string file, .int line.toInt, .int column.toInt, .string extras,
        .array (details.map .string)]) ⟨file, line, column, extras, details⟩

variable {v : Value} {r : Record}

theorem required_eq_ok_iff {α : Type} {name : String} {o : Option α} {a : α} :
    required name o = .ok a ↔ o = some a := by
  cases o <;> simp [required]

theorem exists_optional {α : Type} (members : List (String × Value)) (name : String)
    {read : Value → Shaped α} {written : α → Value}
    (hread : ∀ {v a}, Last members name v → (read v = .ok a ↔ v = written a)) (default a : α) :
    (∃ o, field? members name read = .ok o ∧ o.getD default = a) ↔
      Last members name (written a) ∨ Absent members name ∧ a = default := by
  constructor
  · rintro ⟨_ | a', ho, rfl⟩
    · exact .inr ⟨field?_eq_none_iff.mp ho, rfl⟩
    · obtain ⟨v, hv, ha⟩ := field?_eq_some_iff.mp ho
      exact .inl ((hread hv).mp ha ▸ hv)
  · rintro (h | ⟨h, rfl⟩)
    · exact ⟨some a, field?_eq_some_iff.mpr ⟨_, h, (hread h).mpr rfl⟩, rfl⟩
    · exact ⟨none, field?_eq_none_iff.mpr h, rfl⟩

theorem field?_eq_some_written {α : Type} (members : List (String × Value)) (name : String)
    {read : Value → Shaped α} {written : α → Value}
    (hread : ∀ {v a}, Last members name v → (read v = .ok a ↔ v = written a)) (a : α) :
    field? members name read = .ok (some a) ↔ Last members name (written a) := by
  rw [field?_eq_some_iff]
  exact ⟨fun ⟨v, hv, ha⟩ => (hread hv).mp ha ▸ hv, fun h => ⟨_, h, (hread h).mpr rfl⟩⟩

theorem ofMembers_eq_ok_iff {members : List (String × Value)} (h : Written (.object members)) :
    ofMembers members = .ok r ↔ HasMembers members r := by
  have hint : ∀ {name v n}, Last members name v → (toInt64 v = .ok n ↔ v = .int n.toInt) :=
    fun hlast => toInt64_eq_ok_iff (h.member hlast.mem)
  have hfile := field?_eq_some_written members "file" (fun _ => toText_eq_ok_iff) r.file
  have hline := field?_eq_some_written members "line" hint r.line
  have hcolumn := field?_eq_some_written members "column" hint r.column
  have hextras := exists_optional members "extras" (fun _ => toText_eq_ok_iff) "" r.extras
  have hdetails := exists_optional members "details" (fun _ => toTexts_eq_ok_iff) [] r.details
  simp only [ofMembers, bind_eq_ok_iff, required_eq_ok_iff]
  constructor
  · rintro ⟨_, hc, details, hd, extras, he, _, hf, _, hl, file, rfl, line, rfl, column, rfl, hr⟩
    obtain rfl := Except.ok.inj hr
    exact ⟨hfile.mp hf, hline.mp hl, hcolumn.mp hc, hextras.mp ⟨extras, he, rfl⟩,
      hdetails.mp ⟨details, hd, rfl⟩⟩
  · rintro ⟨hf, hl, hc, he, hd⟩
    obtain ⟨extras, he, he'⟩ := hextras.mpr he
    obtain ⟨details, hd, hd'⟩ := hdetails.mpr hd
    refine ⟨_, hcolumn.mpr hc, details, hd, extras, he, _, hfile.mpr hf, _, hline.mpr hl, _, rfl, _,
      rfl, _, rfl, ?_⟩
    rw [he', hd']
    rfl

theorem takeField_eq_ok_iff {α : Type} {index : Nat} {read : Value → Shaped α} {a : α}
    {items rest : List Value} :
    takeField index read items = .ok (a, rest) ↔ ∃ v, items = v :: rest ∧ read v = .ok a := by
  cases items with
  | nil => simp [takeField]
  | cons v items =>
    cases h : read v with
    | error e => simp [takeField, h, Except.map]
    | ok a' => simp [takeField, h, Except.map, and_comm]

theorem ofItems_eq_ok_iff {items : List Value} (h : Written (.array items)) :
    ofItems items = .ok r ↔ Shape (.array items) r := by
  have hint : ∀ {v n}, v ∈ items → (toInt64 v = .ok n ↔ v = .int n.toInt) :=
    fun hv => toInt64_eq_ok_iff (h.item hv)
  simp only [ofItems, bind_eq_ok_iff, Prod.exists, takeField_eq_ok_iff, takeFieldOr_eq_ok_iff,
    toText_eq_ok_iff, toTexts_eq_ok_iff]
  constructor
  · rintro ⟨file, _, ⟨_, rfl, rfl⟩, line, _, ⟨vl, rfl, hl⟩, column, _, ⟨vc, rfl, hc⟩, extras, rest,
      he, details, _, hd, hr⟩
    obtain rfl := (hint (by simp)).mp hl
    obtain rfl := (hint (by simp)).mp hc
    split at hr
    · next hempty =>
      obtain rfl := List.isEmpty_iff.mp hempty
      obtain rfl := Except.ok.inj hr
      rcases he with ⟨rfl, rfl, rfl⟩ | ⟨_, rfl, rfl⟩
      · rcases hd with ⟨-, rfl, -⟩ | ⟨_, hd, -⟩
        · exact .three file line column
        · cases hd
      · rcases hd with ⟨rfl, rfl, -⟩ | ⟨_, rfl, rfl⟩
        · exact .four file line column extras
        · exact .five file line column extras details
    · cases hr
  · intro hshape
    have hwritten : ∀ n : Int64, .int n.toInt ∈ items → toInt64 (.int n.toInt) = .ok n :=
      fun n hn => (hint hn).mpr rfl
    cases hshape with
    | three file line column =>
      exact ⟨file, _, ⟨_, rfl, rfl⟩, line, _, ⟨_, rfl, hwritten line (by simp)⟩, column, _,
        ⟨_, rfl, hwritten column (by simp)⟩, _, _, .inl ⟨rfl, rfl, rfl⟩, _, _,
        .inl ⟨rfl, rfl, rfl⟩, rfl⟩
    | four file line column extras =>
      exact ⟨file, _, ⟨_, rfl, rfl⟩, line, _, ⟨_, rfl, hwritten line (by simp)⟩, column, _,
        ⟨_, rfl, hwritten column (by simp)⟩, extras, _, .inr ⟨_, rfl, rfl⟩, _, _,
        .inl ⟨rfl, rfl, rfl⟩, rfl⟩
    | five file line column extras details =>
      exact ⟨file, _, ⟨_, rfl, rfl⟩, line, _, ⟨_, rfl, hwritten line (by simp)⟩, column, _,
        ⟨_, rfl, hwritten column (by simp)⟩, extras, _, .inr ⟨_, rfl, rfl⟩, details, _,
        .inr ⟨_, rfl, rfl⟩, rfl⟩

theorem ofValue_eq_ok_iff (h : Written v) : ofValue v = .ok r ↔ Shape v r := by
  cases v with
  | object members =>
    rw [ofValue, ofMembers_eq_ok_iff h]
    exact ⟨.members, fun | .members h => h⟩
  | array items => exact ofItems_eq_ok_iff h
  | null | bool | int | float | string => exact ⟨nofun, nofun⟩

variable {payload : Bytes} {items : List Value}

theorem parseAll_of_array (h : IsText payload (.array items)) :
    parseAll payload = (items.mapM ofValue).mapError .record := by
  rw [parseAll, parse_eq_ok_iff.mpr h]

theorem parseAll_of_not_array (h : IsText payload v) (hv : ∀ items, v ≠ .array items) :
    parseAll payload = .error (.notArray v.kind) := by
  rw [parseAll, parse_eq_ok_iff.mpr h]
  cases v with
  | array items => exact absurd rfl (hv items)
  | null | bool | int | float | string | object => rfl

theorem parseAll_of_not_text (h : ¬∃ v, IsText payload v) :
    ∃ fault, parseAll payload = .error (.json fault) := by
  cases hp : parse payload with
  | error fault => exact ⟨fault, by rw [parseAll, hp]⟩
  | ok v => exact absurd ⟨v, parse_eq_ok_iff.mp hp⟩ h

theorem mapM_ofValue_eq_ok_iff (h : Written (.array items)) {records : List Record} :
    items.mapM ofValue = .ok records ↔ List.Forall₂ Shape items records := by
  rw [mapM_eq_ok_iff]
  have hitems : ∀ v ∈ items, Written v := fun v hv => h.item hv
  clear h
  induction items generalizing records with
  | nil => simp
  | cons v items ih =>
    obtain ⟨hv, hitems⟩ := List.forall_mem_cons.mp hitems
    simp only [List.forall₂_cons_left_iff, ofValue_eq_ok_iff hv, ih hitems]

theorem exists_shape_of_forall₂ {records : List Record} (h : List.Forall₂ Shape items records)
    {item : Value} (hmem : item ∈ items) : ∃ r, Shape item r := by
  induction h with
  | nil => cases hmem
  | cons hr hs ih =>
    rcases List.mem_cons.mp hmem with rfl | hmem
    · exact ⟨_, hr⟩
    · exact ih hmem

theorem parseAll_of_mismatch (h : IsText payload (.array items)) {item : Value}
    (hmem : item ∈ items) (hno : ∀ r, ¬Shape item r) :
    ∃ mismatch, parseAll payload = .error (.record mismatch) := by
  rw [parseAll_of_array h]
  cases hm : items.mapM ofValue with
  | error mismatch => exact ⟨mismatch, rfl⟩
  | ok records =>
    have hs := (mapM_ofValue_eq_ok_iff h.written).mp hm
    obtain ⟨r, hr⟩ := exists_shape_of_forall₂ hs hmem
    exact absurd hr (hno r)

inductive Verdict (payload : Bytes) : Except PayloadError (List Record) → Prop
  | records {items : List Value} {records : List Record} (h : IsText payload (.array items))
      (hs : List.Forall₂ Shape items records) : Verdict payload (.ok records)
  | notText (fault : Fault) (h : ¬∃ v, IsText payload v) : Verdict payload (.error (.json fault))
  | notArray {v : Value} (h : IsText payload v) (hv : ∀ items, v ≠ .array items) :
      Verdict payload (.error (.notArray v.kind))
  | mismatch (mismatch : Mismatch) {items : List Value} {item : Value}
      (h : IsText payload (.array items)) (hmem : item ∈ items) (hno : ∀ r, ¬Shape item r) :
      Verdict payload (.error (.record mismatch))

theorem verdict_parseAll (payload : Bytes) : Verdict payload (parseAll payload) := by
  by_cases htext : ∃ v, IsText payload v
  · obtain ⟨v, h⟩ := htext
    by_cases harray : ∃ items, v = .array items
    · obtain ⟨items, rfl⟩ := harray
      rw [parseAll_of_array h]
      cases hm : items.mapM ofValue with
      | ok records => exact .records h ((mapM_ofValue_eq_ok_iff h.written).mp hm)
      | error mismatch =>
        obtain ⟨item, hmem, hitem⟩ := exists_of_mapM_eq_error hm
        refine .mismatch mismatch h hmem fun r hr => ?_
        rw [(ofValue_eq_ok_iff (h.written.item hmem)).mpr hr] at hitem
        cases hitem
    · have hv := not_exists.mp harray
      rw [parseAll_of_not_array h hv]
      exact .notArray h hv
  · obtain ⟨fault, hfault⟩ := parseAll_of_not_text htext
    rw [hfault]
    exact .notText fault htext

theorem parseAll_eq_ok_iff {records : List Record} :
    parseAll payload = .ok records ↔
      ∃ items, IsText payload (.array items) ∧ List.Forall₂ Shape items records := by
  constructor
  · intro hp
    have hverdict := verdict_parseAll payload
    rw [hp] at hverdict
    cases hverdict with
    | records h hs => exact ⟨_, h, hs⟩
  · rintro ⟨items, h, hs⟩
    rw [parseAll_of_array h, (mapM_ofValue_eq_ok_iff h.written).mpr hs]
    rfl

/-- What a payload is decides what is made of it: the records of an array of records, in order, and
for all others what is wrong with them. -/
theorem parseAll_classifies (payload : Bytes) :
    (∀ records, parseAll payload = .ok records ↔
      ∃ items, IsText payload (.array items) ∧ List.Forall₂ Shape items records) ∧
    ((∃ fault, parseAll payload = .error (.json fault)) ↔ ¬∃ v, IsText payload v) ∧
    ((∃ kind, parseAll payload = .error (.notArray kind)) ↔
      ∃ v, IsText payload v ∧ ∀ items, v ≠ .array items) ∧
    ((∃ mismatch, parseAll payload = .error (.record mismatch)) ↔
      ∃ items, IsText payload (.array items) ∧ ∃ item ∈ items, ∀ r, ¬Shape item r) := by
  have hverdict := verdict_parseAll payload
  have htext : (∃ fault, parseAll payload = .error (.json fault)) ↔ ¬∃ v, IsText payload v := by
    constructor
    · rintro ⟨fault, hfault⟩
      rw [hfault] at hverdict
      cases hverdict with
      | notText _ h => exact h
    · exact parseAll_of_not_text
  have hkind : (∃ kind, parseAll payload = .error (.notArray kind)) ↔
      ∃ v, IsText payload v ∧ ∀ items, v ≠ .array items := by
    constructor
    · rintro ⟨kind, hkind⟩
      rw [hkind] at hverdict
      cases hverdict with
      | notArray h hv => exact ⟨_, h, hv⟩
    · rintro ⟨v, h, hv⟩
      exact ⟨v.kind, parseAll_of_not_array h hv⟩
  have hrecord : (∃ mismatch, parseAll payload = .error (.record mismatch)) ↔
      ∃ items, IsText payload (.array items) ∧ ∃ item ∈ items, ∀ r, ¬Shape item r := by
    constructor
    · rintro ⟨mismatch, hmismatch⟩
      rw [hmismatch] at hverdict
      cases hverdict with
      | mismatch _ h hmem hno => exact ⟨_, h, _, hmem, hno⟩
    · rintro ⟨items, h, item, hmem, hno⟩
      exact parseAll_of_mismatch h hmem hno
  exact ⟨fun records => parseAll_eq_ok_iff, htext, hkind, hrecord⟩

end Record

end BuildWatch
