import BuildWatch.Noise
import BuildWatch.Proofs.Text.Cut
import BuildWatch.Proofs.Text.Pattern

namespace BuildWatch.Noise

open Text Text.Pattern

def Digits (d : List Char) : Prop := d ≠ [] ∧ ∀ c ∈ d, isDigit c = true

inductive Place : List Char → Prop where
  | point {l c : List Char} (hl : Digits l) (hc : Digits c) : Place (l ++ ':' :: c)
  | columns {l c d : List Char} (hl : Digits l) (hc : Digits c) (hd : Digits d) :
    Place (l ++ ':' :: c ++ '-' :: d)
  | box {l c l' c' : List Char} (hl : Digits l) (hc : Digits c) (hl' : Digits l')
    (hc' : Digits c') :
    Place ('(' :: l ++ ',' :: c ++ [')', '-', '('] ++ l' ++ ',' :: c' ++ [')'])

/-- A text that begins with a location: a file without blanks in its name, and a place in it. -/
structure Located (s file place rest : List Char) : Prop where
  split : s = file ++ ':' :: place ++ ':' :: rest
  named : file ≠ []
  visible : ∀ c ∈ file, isBlank c = false
  place : Place place

section Places

variable {d d' s s' u u' : List Char} {x x' : Char}

theorem isDigit_colon : isDigit ':' = false := by decide

theorem isDigit_dash : isDigit '-' = false := by decide

theorem isDigit_comma : isDigit ',' = false := by decide

theorem isDigit_open : isDigit '(' = false := by decide

theorem isDigit_close : isDigit ')' = false := by decide

theorem Digits.append_inj (hd : Digits d) (hd' : Digits d') (hx : isDigit x = false)
    (hx' : isDigit x' = false) (h : d ++ x :: s = d' ++ x' :: s') : d = d' ∧ x = x' ∧ s = s' :=
  run_append_inj hd.2 hd'.2 hx hx' h

theorem Digits.append_ne (hd : Digits d) (hx : isDigit x = false) : d ++ s ≠ x :: s' := by
  obtain ⟨hne, hall⟩ := hd
  cases d with
  | nil => exact absurd rfl hne
  | cons c d =>
    intro h
    obtain ⟨rfl, -⟩ := List.cons.inj h
    rw [hall c List.mem_cons_self] at hx
    cases hx

theorem colon_ne_dash (hd : Digits d) (hd' : Digits d') (hu : Digits u) (hu' : Digits u') :
    d ++ ':' :: (u ++ ':' :: s) ≠ d' ++ ':' :: (u' ++ '-' :: s') := by
  intro h
  obtain ⟨-, -, h⟩ := hd.append_inj hd' isDigit_colon isDigit_colon h
  obtain ⟨-, hx, -⟩ := hu.append_inj hu' isDigit_colon isDigit_dash h
  exact absurd hx (by decide)

theorem Place.append_inj (h : Place u) (h' : Place u') (he : u ++ ':' :: s = u' ++ ':' :: s') :
    u = u' := by
  cases h with
  | point hl hc =>
    cases h' with
    | point hl' hc' =>
      simp only [List.append_assoc, List.cons_append] at he
      obtain ⟨rfl, -, he⟩ := hl.append_inj hl' isDigit_colon isDigit_colon he
      obtain ⟨rfl, -, -⟩ := hc.append_inj hc' isDigit_colon isDigit_colon he
      rfl
    | columns hl' hc' hd' =>
      simp only [List.append_assoc, List.cons_append] at he
      exact absurd he (colon_ne_dash hl hl' hc hc')
    | box hl' hc' hk' hd' =>
      simp only [List.append_assoc, List.cons_append] at he
      exact absurd he (hl.append_ne isDigit_open)
  | columns hl hc hd =>
    cases h' with
    | point hl' hc' =>
      simp only [List.append_assoc, List.cons_append] at he
      exact absurd he.symm (colon_ne_dash hl' hl hc' hc)
    | columns hl' hc' hd' =>
      simp only [List.append_assoc, List.cons_append] at he
      obtain ⟨rfl, -, he⟩ := hl.append_inj hl' isDigit_colon isDigit_colon he
      obtain ⟨rfl, -, he⟩ := hc.append_inj hc' isDigit_dash isDigit_dash he
      obtain ⟨rfl, -, -⟩ := hd.append_inj hd' isDigit_colon isDigit_colon he
      rfl
    | box hl' hc' hk' hd' =>
      simp only [List.append_assoc, List.cons_append] at he
      exact absurd he (hl.append_ne isDigit_open)
  | box hl hc hk hd =>
    cases h' with
    | point hl' hc' =>
      simp only [List.append_assoc, List.cons_append] at he
      exact absurd he.symm (hl'.append_ne isDigit_open)
    | columns hl' hc' hd' =>
      simp only [List.append_assoc, List.cons_append] at he
      exact absurd he.symm (hl'.append_ne isDigit_open)
    | box hl' hc' hk' hd' =>
      simp only [List.append_assoc, List.cons_append, List.cons.injEq, true_and,
        List.nil_append] at he
      obtain ⟨rfl, -, he⟩ := hl.append_inj hl' isDigit_comma isDigit_comma he
      obtain ⟨rfl, -, he⟩ := hc.append_inj hc' isDigit_close isDigit_close he
      simp only [List.cons.injEq, true_and] at he
      obtain ⟨rfl, -, he⟩ := hk.append_inj hk' isDigit_comma isDigit_comma he
      obtain ⟨rfl, -, -⟩ := hd.append_inj hd' isDigit_close isDigit_close he
      rfl

theorem matches_char_seq {c : Char} {p : Pattern} :
    (Pattern.seq (char c) p).Matches u ↔ ∃ v, u = c :: v ∧ p.Matches v := by
  constructor
  · intro ⟨x, y, hu, hx, hy⟩
    rw [matches_char.mp hx] at hu
    exact ⟨y, hu, hy⟩
  · intro ⟨v, hu, hv⟩
    exact ⟨[c], v, hu, matches_char.mpr rfl, hv⟩

theorem matches_number : number.Matches u ↔ Digits u := matches_many1

theorem matches_corner :
    corner.Matches u ↔ ∃ l c, Digits l ∧ Digits c ∧ u = '(' :: l ++ ',' :: c ++ [')'] := by
  constructor
  · intro h
    obtain ⟨x, rfl, l, y, rfl, hl, hy⟩ := matches_char_seq.mp h
    obtain ⟨z, rfl, c, w, rfl, hc, hw⟩ := matches_char_seq.mp hy
    obtain rfl := matches_char.mp hw
    exact ⟨l, c, matches_number.mp hl, matches_number.mp hc, by simp⟩
  · intro ⟨l, c, hl, hc, hu⟩
    refine matches_char_seq.mpr ⟨l ++ ',' :: (c ++ [')']), by simp [hu], ?_⟩
    refine ⟨l, _, rfl, matches_number.mpr hl, matches_char_seq.mpr ⟨_, rfl, ?_⟩⟩
    exact ⟨c, _, rfl, matches_number.mpr hc, matches_char.mpr rfl⟩

theorem place_of_lineSpan (h : lineSpan.Matches u) : Place u := by
  obtain ⟨l, x, rfl, hl, hx⟩ := h
  obtain ⟨y, rfl, c, z, rfl, hc, hz⟩ := matches_char_seq.mp hx
  have hl := matches_number.mp hl
  have hc := matches_number.mp hc
  cases hz with
  | inl hz =>
    obtain ⟨d, rfl, hd⟩ := matches_char_seq.mp hz
    have hplace := Place.columns hl hc (matches_number.mp hd)
    rwa [List.append_assoc, List.cons_append] at hplace
  | inr hz =>
    obtain rfl : z = [] := hz
    rw [List.append_nil]
    exact .point hl hc

theorem place_of_boxSpan (h : boxSpan.Matches u) : Place u := by
  obtain ⟨x, y, rfl, hx, hy⟩ := h
  obtain ⟨z, rfl, hz⟩ := matches_char_seq.mp hy
  obtain ⟨l, c, hl, hc, rfl⟩ := matches_corner.mp hx
  obtain ⟨k, d, hk, hd, rfl⟩ := matches_corner.mp hz
  have hplace := Place.box hl hc hk hd
  simpa using hplace

theorem matches_place : (Pattern.choice lineSpan boxSpan).Matches u ↔ Place u := by
  constructor
  · intro h
    cases h with
    | inl h => exact place_of_lineSpan h
    | inr h => exact place_of_boxSpan h
  · intro h
    cases h with
    | @point l c hl hc =>
      refine .inl ⟨l, _, rfl, matches_number.mpr hl, matches_char_seq.mpr ⟨c, rfl, ?_⟩⟩
      exact ⟨c, [], (List.append_nil c).symm, matches_number.mpr hc, .inr rfl⟩
    | @columns l c d hl hc hd =>
      refine .inl ⟨l, ':' :: c ++ '-' :: d, List.append_assoc .., matches_number.mpr hl, ?_⟩
      refine matches_char_seq.mpr ⟨c ++ '-' :: d, rfl, c, _, rfl, matches_number.mpr hc, .inl ?_⟩
      exact matches_char_seq.mpr ⟨d, rfl, matches_number.mpr hd⟩
    | @box l c k d hl hc hk hd =>
      refine .inr ⟨'(' :: l ++ ',' :: c ++ [')'], '-' :: ('(' :: k ++ ',' :: d ++ [')']), by simp,
        matches_corner.mpr ⟨l, c, hl, hc, rfl⟩, matches_char_seq.mpr ⟨_, rfl, ?_⟩⟩
      exact matches_corner.mpr ⟨k, d, hk, hd, rfl⟩

end Places

section Locations

variable {s v r : List Char}

theorem run_char {α : Type} {c : Char} {p : Pattern} {next : List Char → Option α} {a : α} :
    (Pattern.seq (char c) p).run next v = some a ↔ ∃ w, v = c :: w ∧ p.run next w = some a := by
  cases v with
  | nil => simp [Pattern.run, char]
  | cons d v =>
    by_cases hd : d = c
    · simp [Pattern.run, char, hd]
    · simp [Pattern.run, char, hd]

theorem run_blanks : (many isBlank).run some s = some (trimStart s) :=
  run_many_of_total fun _ => Option.some_ne_none _

def afterFile : Pattern :=
  .seq (char ':') (.seq (.choice lineSpan boxSpan) (.seq (char ':') (.many isBlank)))

theorem run_lastColon : (Pattern.seq (char ':') (.many isBlank)).run some v = some r ↔
    ∃ more, v = ':' :: more ∧ trimStart more = r := by
  simp only [run_char, run_blanks, Option.some.injEq]

theorem run_afterFile :
    afterFile.run some v = some r ↔
      ∃ place more, v = ':' :: place ++ ':' :: more ∧ Place place ∧ trimStart more = r := by
  have hunique : ∀ w u x a u' x' b,
      Way (.choice lineSpan boxSpan) ((Pattern.seq (char ':') (.many isBlank)).run some) w u x a →
      Way (.choice lineSpan boxSpan) ((Pattern.seq (char ':') (.many isBlank)).run some) w u' x' b →
      u = u' := by
    intro w u x a u' x' b h h'
    obtain ⟨more, rfl, -⟩ := run_lastColon.mp h.answer
    obtain ⟨more', rfl, -⟩ := run_lastColon.mp h'.answer
    apply (matches_place.mp h.matched).append_inj (matches_place.mp h'.matched)
    rw [← h.split, ← h'.split]
  rw [afterFile, run_char]
  constructor
  · intro ⟨w, hv, hw⟩
    obtain ⟨place, x, rfl, hplace, hx⟩ := (run_eq_some_iff_of_unique (hunique w)).mp hw
    obtain ⟨more, rfl, hr⟩ := run_lastColon.mp hx
    exact ⟨place, more, hv, matches_place.mp hplace, hr⟩
  · intro ⟨place, more, hv, hplace, hr⟩
    refine ⟨place ++ ':' :: more, hv, (run_eq_some_iff_of_unique (hunique _)).mpr ?_⟩
    exact ⟨place, ':' :: more, rfl, matches_place.mpr hplace, run_lastColon.mpr ⟨more, rfl, hr⟩⟩

theorem way_file {file : List Char} :
    (∃ v, Way (few1 fun c => !isBlank c) (afterFile.run some) s file v r) ↔
      ∃ place more, Located s file place more ∧ trimStart more = r := by
  constructor
  · intro ⟨v, hs, hfile, hv⟩
    obtain ⟨place, more, rfl, hplace, hr⟩ := run_afterFile.mp hv
    obtain ⟨hne, hall⟩ := matches_few1.mp hfile
    refine ⟨place, more, ⟨?_, hne, fun c hc => by simpa using hall c hc, hplace⟩, hr⟩
    rw [hs, List.append_assoc]
  · intro ⟨place, more, ⟨hs, hne, hall, hplace⟩, hr⟩
    refine ⟨':' :: place ++ ':' :: more, ?_, matches_few1.mpr ⟨hne, fun c hc => ?_⟩,
      run_afterFile.mpr ⟨place, more, rfl, hplace, hr⟩⟩
    · rw [hs, List.append_assoc]
    · rw [hall c hc, Bool.not_false]

theorem rest?_location_eq_some_iff :
    location.rest? s = some r ↔
      ∃ file place more, Located s file place more ∧
        (∀ file' place' more', Located s file' place' more' → file.length ≤ file'.length) ∧
        trimStart more = r := by
  rw [location, rest?_seq, ← afterFile, run_few1_eq_some_iff]
  constructor
  · intro ⟨file, v, hway, hshort⟩
    obtain ⟨place, more, hl, hr⟩ := way_file.mp ⟨v, hway⟩
    refine ⟨file, place, more, hl, fun file' place' more' hl' => ?_, hr⟩
    obtain ⟨v', hway'⟩ := way_file.mpr ⟨place', more', hl', rfl⟩
    exact hshort file' v' _ hway'
  · intro ⟨file, place, more, hl, hshort, hr⟩
    obtain ⟨v, hway⟩ := way_file.mpr ⟨place, more, hl, hr⟩
    refine ⟨file, v, hway, fun file' v' r' hway' => ?_⟩
    obtain ⟨place', more', hl', -⟩ := way_file.mp ⟨v', hway'⟩
    exact hshort file' place' more' hl'

theorem rest?_location_eq_none_iff :
    location.rest? s = none ↔ ∀ file place more, ¬Located s file place more := by
  rw [location, rest?_seq, ← afterFile, run_eq_none_iff]
  constructor
  · intro h file place more hl
    obtain ⟨v, hway⟩ := way_file.mpr ⟨place, more, hl, rfl⟩
    exact h file v _ hway
  · intro h file v r hway
    obtain ⟨place, more, hl, -⟩ := way_file.mp ⟨v, hway⟩
    exact h file place more hl

end Locations

end BuildWatch.Noise
