import BuildWatch.Proofs.Json.Numeral

namespace BuildWatch.Json

def NoDigit (bs : Bytes) : Prop := ∀ b ∈ bs.head?, digit? b = none

theorem split_digits (bs : Bytes) : ∃ ds rest, Digits ds ∧ NoDigit rest ∧ bs = ds ++ rest := by
  induction bs with
  | nil => exact ⟨[], [], nofun, nofun, rfl⟩
  | cons b bs ih =>
    cases hb : digit? b with
    | none => exact ⟨[], b :: bs, nofun, by simpa [NoDigit] using hb, rfl⟩
    | some d =>
      obtain ⟨ds, rest, hds, hrest, rfl⟩ := ih
      refine ⟨b :: ds, rest, ?_, hrest, rfl⟩
      exact List.forall_mem_cons.mpr ⟨by rw [hb]; rfl, hds⟩

namespace Number

theorem ok_iff_toOption {α : Type} {x : Step α} {a : α} {rest : Bytes} :
    x = .ok (a, rest) ↔ x.toOption = some (a, rest) := by
  cases x <;> simp [Except.toOption]

variable {ds rest : Bytes}

theorem dropDigits_append (hds : Digits ds) (hrest : NoDigit rest) :
    dropDigits (ds ++ rest) = rest := by
  rw [dropDigits, List.dropWhile_append_of_pos hds]
  cases rest with
  | nil => rfl
  | cons b rest =>
    have hb : digit? b = none := hrest b rfl
    rw [List.dropWhile_cons_of_neg (by rw [hb]; decide)]

theorem extend_cons (n : Nat) (b : UInt8) (ds : Bytes) :
    extend n (b :: ds) = extend (n * 10 + (digit? b).getD 0) ds := rfl

theorem le_extend (n : Nat) (ds : Bytes) : n ≤ extend n ds := by
  induction ds generalizing n with
  | nil => exact Nat.le_refl n
  | cons b ds ih =>
    rw [extend_cons]
    have := ih (n * 10 + (digit? b).getD 0)
    omega

section Exponents

variable (negative : Bool) (significand : Nat) (base : Int) (down : Bool)

theorem toOption_finish (e : Int) (rest : Bytes) :
    (finish negative significand e rest).toOption =
      ((float? negative significand e).map Value.float).map (·, rest) := by
  unfold finish
  cases float? negative significand e <;> rfl

theorem toOption_exponentDigits (hds : Digits ds) (hrest : NoDigit rest) {e : Nat}
    (he : e ≤ maxExponent) :
    (exponentDigits negative significand base down e (ds ++ rest)).toOption =
      (raised? negative significand base down (extend e ds)).map (·, rest) := by
  induction ds generalizing e with
  | nil =>
    have hend : exponentDigits negative significand base down e rest =
        finish negative significand (if down then base - e else base + e) rest := by
      cases rest with
      | nil => rw [exponentDigits]
      | cons b rest =>
        have hb : digit? b = none := hrest b rfl
        simp only [exponentDigits, hb]
    rw [List.nil_append, hend, toOption_finish, raised?, extend, List.foldl_nil,
      if_neg (Nat.not_lt.mpr he)]
  | cons b ds ih =>
    obtain ⟨hb, hds⟩ := List.forall_mem_cons.mp hds
    obtain ⟨d, hd⟩ := Option.isSome_iff_exists.mp hb
    simp only [List.cons_append, exponentDigits, hd, extend_cons, Option.getD_some]
    by_cases hlt : maxExponent < e * 10 + d
    -- further digits do not make the exponent smaller again, so they need not be looked at
    · have hout : maxExponent < extend (e * 10 + d) ds := Nat.lt_of_lt_of_le hlt (le_extend _ ds)
      rw [if_pos hlt, raised?, if_pos hout, dropDigits_append hds hrest]
      split <;> rfl
    · rw [if_neg hlt]
      exact ih hds (Nat.not_lt.mp hlt)

def afterSign (bs : Bytes) : Step Value :=
  match bs with
  | [] => .error ⟨.endOfValue, [], .here⟩
  | b :: rest =>
    match digit? b with
    | none => .error ⟨.invalidNumber, rest, .here⟩
    | some d => exponentDigits negative significand base down d rest

theorem digit?_le {b : UInt8} {d : Nat} (h : digit? b = some d) : d ≤ 9 := by
  unfold digit? at h
  split at h
  · next hb =>
    have hle : b.toNat ≤ 0x39 := UInt8.le_iff_toNat_le.mp hb.2
    obtain rfl := Option.some.inj h
    omega
  · cases h

theorem afterSign_eq_ok_iff {bs rest : Bytes} {v : Value} :
    afterSign negative significand base down bs = .ok (v, rest) ↔
      ∃ ds, Digits ds ∧ ds ≠ [] ∧ NoDigit rest ∧ bs = ds ++ rest ∧
        raised? negative significand base down (extend 0 ds) = some v := by
  have hread : ∀ {b ds rest d}, digit? b = some d → Digits ds → NoDigit rest →
      (afterSign negative significand base down (b :: (ds ++ rest))).toOption =
        (raised? negative significand base down (extend 0 (b :: ds))).map (·, rest) := by
    intro b ds rest d hd hds hrest
    have he : d ≤ maxExponent := Nat.le_trans (digit?_le hd) (by decide)
    simp only [afterSign, hd, extend_cons, Option.getD_some, Nat.zero_mul, Nat.zero_add]
    exact toOption_exponentDigits negative significand base down hds hrest he
  rw [ok_iff_toOption]
  constructor
  · intro h
    cases bs with
    | nil => cases h
    | cons b bs =>
      cases hd : digit? b with
      | none =>
        simp only [afterSign, hd] at h
        cases h
      | some d =>
        obtain ⟨ds, rest', hds, hrest, rfl⟩ := split_digits bs
        rw [hread hd hds hrest] at h
        obtain ⟨v', hv, he⟩ := Option.map_eq_some_iff.mp h
        obtain ⟨rfl, rfl⟩ := Prod.mk.inj he
        exact ⟨b :: ds, List.forall_mem_cons.mpr ⟨by rw [hd]; rfl, hds⟩, List.cons_ne_nil _ _, hrest,
          rfl, hv⟩
  · rintro ⟨ds, hds, hne, hrest, rfl, hv⟩
    cases ds with
    | nil => contradiction
    | cons b ds =>
      obtain ⟨hb, hds⟩ := List.forall_mem_cons.mp hds
      obtain ⟨d, hd⟩ := Option.isSome_iff_exists.mp hb
      rw [List.cons_append, hread hd hds hrest, hv]
      rfl

theorem exponent_eq (sign : Option UInt8) (hsign : ∀ b ∈ sign, b = 0x2b ∨ b = 0x2d) (bs : Bytes)
    (hbs : sign = none → ∀ b ∈ bs.head?, b ≠ 0x2b ∧ b ≠ 0x2d) :
    exponent negative significand base (sign.toList ++ bs) =
      afterSign negative significand base (sign = some 0x2d) bs := by
  cases sign with
  | none =>
    cases bs with
    | nil => rfl
    | cons b bs =>
      obtain ⟨h1, h2⟩ := hbs rfl b rfl
      simp only [Option.toList_none, List.nil_append, exponent, if_neg h1, if_neg h2, afterSign]
      cases digit? b <;> rfl
  | some b =>
    rcases hsign b rfl with rfl | rfl <;> rfl

theorem split_sign (bs : Bytes) :
    ∃ (sign : Option UInt8) (rest : Bytes), (∀ b ∈ sign, b = 0x2b ∨ b = 0x2d) ∧
      (sign = none → ∀ b ∈ rest.head?, b ≠ 0x2b ∧ b ≠ 0x2d) ∧ bs = sign.toList ++ rest := by
  cases bs with
  | nil => exact ⟨none, [], nofun, nofun, rfl⟩
  | cons b bs =>
    by_cases hb : b = 0x2b ∨ b = 0x2d
    · exact ⟨some b, bs, by simpa using hb, nofun, rfl⟩
    · exact ⟨none, b :: bs, nofun, by simpa using hb, rfl⟩

theorem digit?_ne_sign {b : UInt8} (h : (digit? b).isSome) : b ≠ 0x2b ∧ b ≠ 0x2d := by
  constructor <;> rintro rfl <;> cases h

theorem exponent_eq_ok_iff {bs rest : Bytes} {v : Value} {letter : UInt8}
    (hletter : isExponentLetter letter) :
    exponent negative significand base bs = .ok (v, rest) ↔
      ∃ e : Exponent, e.letter = letter ∧ letter :: bs = e.text ++ rest ∧ NoDigit rest ∧
        scaled? negative significand base (some e) = some v := by
  constructor
  · intro h
    obtain ⟨sign, bs, hsign, hnone, rfl⟩ := split_sign bs
    rw [exponent_eq negative significand base sign hsign bs hnone, afterSign_eq_ok_iff] at h
    obtain ⟨ds, hds, hne, hrest, rfl, hv⟩ := h
    refine ⟨⟨letter, sign, ds, hletter, hsign, hds, hne⟩, rfl, ?_, hrest, hv⟩
    simp only [Exponent.text, List.cons_append, List.append_assoc]
  · rintro ⟨⟨_, sign, ds, _, hsign, hds, hne⟩, rfl, htext, hrest, hv⟩
    simp only [Exponent.text, List.cons_append, List.append_assoc, List.cons.injEq, true_and]
      at htext
    have hnone : sign = none → ∀ b ∈ (ds ++ rest).head?, b ≠ 0x2b ∧ b ≠ 0x2d := by
      intro _ b hb
      cases ds with
      | nil => contradiction
      | cons d ds =>
        obtain rfl : d = b := Option.some.inj hb
        exact digit?_ne_sign (hds d List.mem_cons_self)
    rw [htext, exponent_eq negative significand base sign hsign _ hnone, afterSign_eq_ok_iff]
    exact ⟨ds, hds, hne, hrest, rfl, hv⟩

end Exponents

def NoLetter (bs : Bytes) : Prop := ∀ b ∈ bs.head?, isExponentLetter b = false

def NoPoint (bs : Bytes) : Prop := ∀ b ∈ bs.head?, b ≠ 0x2e

theorem noLetter_or (bs : Bytes) :
    NoLetter bs ∨ ∃ b rest, isExponentLetter b = true ∧ bs = b :: rest := by
  cases bs with
  | nil => exact .inl nofun
  | cons b bs =>
    cases hb : isExponentLetter b with
    | false => exact .inl (by simpa [NoLetter] using hb)
    | true => exact .inr ⟨b, bs, hb, rfl⟩

theorem noPoint_or (bs : Bytes) : NoPoint bs ∨ ∃ rest, bs = 0x2e :: rest := by
  cases bs with
  | nil => exact .inl nofun
  | cons b bs =>
    by_cases hb : b = 0x2e
    · exact .inr ⟨bs, by rw [hb]⟩
    · exact .inl (by simpa [NoPoint] using hb)

theorem eq_none_of_noLetter {e : Option Exponent} {rest : Bytes}
    (h : NoLetter (exponentText e ++ rest)) : e = none := by
  cases e with
  | none => rfl
  | some e =>
    have hb : isExponentLetter e.letter = false := h e.letter rfl
    rw [e.isLetter] at hb
    cases hb

theorem exists_some_of_letter {e : Option Exponent} {b : UInt8} {bs rest : Bytes}
    (hb : isExponentLetter b = true) (hnone : e = none → NoLetter rest)
    (h : b :: bs = exponentText e ++ rest) : ∃ x, e = some x ∧ x.letter = b := by
  cases e with
  | none =>
    obtain rfl : b :: bs = rest := h
    have hb' : isExponentLetter b = false := hnone rfl b rfl
    rw [hb] at hb'
    cases hb'
  | some e => exact ⟨e, rfl, (List.cons.inj h).1.symm⟩

theorem fractionText_of_ne {ds : Bytes} (h : ds ≠ []) : fractionText ds = 0x2e :: ds := by
  cases ds with
  | nil => contradiction
  | cons b ds => rfl

theorem eq_nil_of_noPoint {ds rest : Bytes} (h : NoPoint (fractionText ds ++ rest)) : ds = [] := by
  by_contra hne
  rw [fractionText_of_ne hne] at h
  exact h 0x2e rfl rfl

theorem ne_nil_of_point {ds bs rest : Bytes} {e : Option Exponent}
    (hpoint : e = none → ds = [] → NoPoint rest)
    (h : 0x2e :: bs = fractionText ds ++ (exponentText e ++ rest)) : ds ≠ [] := by
  rintro rfl
  cases e with
  | none =>
    obtain rfl : 0x2e :: bs = rest := h
    exact hpoint rfl rfl 0x2e rfl rfl
  | some e =>
    have hletter := e.isLetter
    rw [← (List.cons.inj h).1] at hletter
    cases hletter

variable (negative : Bool)

section Tail

variable (significand : Nat) (base : Int) {bs rest : Bytes} {v : Value}

theorem afterFraction_of_noLetter (h : NoLetter bs) :
    afterFraction negative significand base bs = finish negative significand base bs := by
  cases bs with
  | nil => rfl
  | cons b bs =>
    have hb : isExponentLetter b = false := h b rfl
    simp only [afterFraction, hb, Bool.false_eq_true, if_false]

theorem afterFraction_eq_ok_iff (hbs : NoDigit bs) :
    afterFraction negative significand base bs = .ok (v, rest) ↔
      ∃ e, bs = exponentText e ++ rest ∧ NoDigit rest ∧ (e = none → NoLetter rest) ∧
        scaled? negative significand base e = some v := by
  rcases noLetter_or bs with hl | ⟨b, bs, hb, rfl⟩
  · rw [afterFraction_of_noLetter negative significand base hl, ok_iff_toOption, toOption_finish]
    constructor
    · intro h
      obtain ⟨v', hv, he⟩ := Option.map_eq_some_iff.mp h
      obtain ⟨rfl, rfl⟩ := Prod.mk.inj he
      exact ⟨none, rfl, hbs, fun _ => hl, hv⟩
    · rintro ⟨e, rfl, -, -, hv⟩
      obtain rfl := eq_none_of_noLetter hl
      have hv : (float? negative significand base).map Value.float = some v := hv
      rw [hv]
      rfl
  · rw [afterFraction, if_pos hb, exponent_eq_ok_iff negative significand base hb]
    constructor
    · rintro ⟨e, -, htext, hrest, hv⟩
      exact ⟨some e, htext, hrest, nofun, hv⟩
    · rintro ⟨e, htext, hrest, hnone, hv⟩
      obtain ⟨e, rfl, hletter⟩ := exists_some_of_letter hb hnone htext
      exact ⟨e, hletter, htext, hrest, hv⟩

end Tail

theorem fit_snd_le (n : Nat) (ds : Bytes) : (fit n ds).2 ≤ ds.length := by
  induction ds generalizing n with
  | nil => exact Nat.le_refl 0
  | cons b ds ih =>
    rw [fit]
    split
    · exact Nat.le_refl _
    · exact Nat.le_succ_of_le (ih _)

theorem fractionDigits_append {ds rest : Bytes} (hds : Digits ds) (hrest : NoDigit rest)
    (significand : Nat) (base : Int) :
    fractionDigits negative significand base (ds ++ rest) =
      afterFraction negative (fit significand ds).1
        (base - (ds.length - (fit significand ds).2 : Nat)) rest := by
  induction ds generalizing significand base with
  | nil =>
    have hend : fractionDigits negative significand base rest =
        afterFraction negative significand base rest := by
      cases rest with
      | nil => rw [fractionDigits]
      | cons b rest =>
        have hb : digit? b = none := hrest b rfl
        simp only [fractionDigits, hb]
    rw [List.nil_append, hend, fit]
    simp
  | cons b ds ih =>
    have hdrop := dropDigits_append hds hrest
    obtain ⟨hb, hds⟩ := List.forall_mem_cons.mp hds
    obtain ⟨d, hd⟩ := Option.isSome_iff_exists.mp hb
    rw [List.cons_append] at hdrop ⊢
    simp only [fractionDigits, hd, fit, Option.getD_some]
    by_cases hlt : maxWord < significand * 10 + d
    · rw [if_pos hlt, if_pos hlt, hdrop]
      simp
    · rw [if_neg hlt, if_neg hlt, ih hds]
      have hle := fit_snd_le (significand * 10 + d) ds
      congr 1
      simp only [List.length_cons]
      omega

/-- What comes after a number does not go on with it. -/
structure Stops (fraction : Bytes) (e : Option Exponent) (rest : Bytes) : Prop where
  noDigit : NoDigit rest
  noLetter : e = none → NoLetter rest
  noPoint : e = none → fraction = [] → NoPoint rest

/-- The value of a number whose whole part gave the significand and moved the point. -/
def tail? (significand moved : Nat) (fraction : Bytes) (e : Option Exponent) : Option Value :=
  if moved = 0 ∧ fraction = [] ∧ e = none then some (whole negative significand)
  else
    let (significand, ignored) := fit significand fraction
    scaled? negative significand (moved - (fraction.length - ignored : Nat)) e

theorem noDigit_exponentText {rest : Bytes} (hrest : NoDigit rest) (e : Option Exponent) :
    NoDigit (exponentText e ++ rest) := by
  cases e with
  | none => exact hrest
  | some e =>
    intro b hb
    obtain rfl : e.letter = b := Option.some.inj hb
    have hletter := e.isLetter
    simp only [isExponentLetter, Bool.or_eq_true, decide_eq_true_eq] at hletter
    rcases hletter with h | h <;> rw [h] <;> rfl

section Tail

variable (significand moved : Nat) {bs rest : Bytes} {v : Value}

theorem fraction_of_digits {ds : Bytes} (hds : Digits ds) (hne : ds ≠ []) (hrest : NoDigit rest)
    (base : Int) :
    fraction negative significand base (ds ++ rest) =
      afterFraction negative (fit significand ds).1
        (base - (ds.length - (fit significand ds).2 : Nat)) rest := by
  rw [← fractionDigits_append negative hds hrest]
  cases ds with
  | nil => contradiction
  | cons b ds =>
    obtain ⟨d, hd⟩ := Option.isSome_iff_exists.mp (hds b List.mem_cons_self)
    simp only [List.cons_append, fraction, hd]

theorem exists_digits_of_fraction {base : Int}
    (h : fraction negative significand base bs = .ok (v, rest)) :
    ∃ ds rest', Digits ds ∧ ds ≠ [] ∧ NoDigit rest' ∧ bs = ds ++ rest' := by
  obtain ⟨ds, rest', hds, hrest, rfl⟩ := split_digits bs
  refine ⟨ds, rest', hds, ?_, hrest, rfl⟩
  rintro rfl
  cases rest' with
  | nil => cases h
  | cons b bs =>
    have hb : digit? b = none := hrest b rfl
    simp only [List.nil_append, fraction, hb] at h
    cases h

theorem fraction_eq_ok_iff :
    fraction negative significand moved bs = .ok (v, rest) ↔
      ∃ ds e, Digits ds ∧ ds ≠ [] ∧ bs = ds ++ (exponentText e ++ rest) ∧ NoDigit rest ∧
        (e = none → NoLetter rest) ∧ tail? negative significand moved ds e = some v := by
  constructor
  · intro h
    obtain ⟨ds, rest', hds, hne, hrest, rfl⟩ := exists_digits_of_fraction negative significand h
    rw [fraction_of_digits negative significand hds hne hrest,
      afterFraction_eq_ok_iff _ _ _ hrest] at h
    obtain ⟨e, rfl, hrest, hl, hv⟩ := h
    exact ⟨ds, e, hds, hne, rfl, hrest, hl, by rwa [tail?, if_neg (by simp [hne])]⟩
  · rintro ⟨ds, e, hds, hne, rfl, hrest, hl, hv⟩
    rw [tail?, if_neg (by simp [hne])] at hv
    have htext := noDigit_exponentText hrest e
    rw [fraction_of_digits negative significand hds hne htext, afterFraction_eq_ok_iff _ _ _ htext]
    exact ⟨e, rfl, hrest, hl, hv⟩

def afterDigits (bs : Bytes) : Step Value :=
  if moved = 0 then afterWhole negative significand bs
  else longDigits negative significand moved bs

theorem afterDigits_point (bs : Bytes) :
    afterDigits negative significand moved (0x2e :: bs) =
      fraction negative significand moved bs := by
  by_cases hm : moved = 0
  · subst hm
    rfl
  · simp only [afterDigits, if_neg hm]
    rfl

theorem afterDigits_letter {b : UInt8} (hb : isExponentLetter b = true) (bs : Bytes) :
    afterDigits negative significand moved (b :: bs) =
      exponent negative significand moved bs := by
  have hletter := hb
  simp only [isExponentLetter, Bool.or_eq_true, decide_eq_true_eq] at hletter
  unfold afterDigits
  split
  · next hm =>
    subst hm
    rcases hletter with rfl | rfl <;> rfl
  · rcases hletter with rfl | rfl <;> rfl

theorem afterDigits_end (hdigit : NoDigit bs) (hletter : NoLetter bs) (hpoint : NoPoint bs) :
    (afterDigits negative significand moved bs).toOption =
      (tail? negative significand moved [] none).map (·, bs) := by
  have hfit : tail? negative significand moved [] none =
      if moved = 0 then some (whole negative significand)
      else (float? negative significand moved).map Value.float := by
    simp [tail?, fit, scaled?]
  rw [hfit]
  unfold afterDigits
  by_cases hm : moved = 0
  · rw [if_pos hm, if_pos hm]
    cases bs with
    | nil => rfl
    | cons b bs =>
      have hl : isExponentLetter b = false := hletter b rfl
      simp only [afterWhole, if_neg (hpoint b rfl), hl, Bool.false_eq_true, if_false]
      rfl
  · rw [if_neg hm, if_neg hm, ← toOption_finish]
    cases bs with
    | nil => rw [longDigits]
    | cons b bs =>
      have hd : digit? b = none := hdigit b rfl
      have hl : isExponentLetter b = false := hletter b rfl
      simp only [longDigits, hd, if_neg (hpoint b rfl), hl, Bool.false_eq_true, if_false,
        Option.isSome_none]

theorem afterDigits_eq_ok_iff (hbs : NoDigit bs) :
    afterDigits negative significand moved bs = .ok (v, rest) ↔
      ∃ ds e, Digits ds ∧ bs = fractionText ds ++ (exponentText e ++ rest) ∧ Stops ds e rest ∧
        tail? negative significand moved ds e = some v := by
  rcases noPoint_or bs with hpoint | ⟨bs, rfl⟩
  · rcases noLetter_or bs with hletter | ⟨b, bs, hb, rfl⟩
    · rw [ok_iff_toOption, afterDigits_end negative significand moved hbs hletter hpoint]
      constructor
      · intro h
        obtain ⟨v', hv, he⟩ := Option.map_eq_some_iff.mp h
        obtain ⟨rfl, rfl⟩ := Prod.mk.inj he
        exact ⟨[], none, nofun, rfl, ⟨hbs, fun _ => hletter, fun _ _ => hpoint⟩, hv⟩
      · rintro ⟨ds, e, -, rfl, -, hv⟩
        obtain rfl := eq_nil_of_noPoint hpoint
        obtain rfl := eq_none_of_noLetter hletter
        rw [hv]
        rfl
    · rw [afterDigits_letter negative significand moved hb,
        exponent_eq_ok_iff negative significand moved hb]
      constructor
      · rintro ⟨e, -, htext, hrest, hv⟩
        exact ⟨[], some e, nofun, htext, ⟨hrest, nofun, nofun⟩, by simpa [tail?, fit] using hv⟩
      · rintro ⟨ds, e, -, htext, hstops, hv⟩
        obtain rfl := eq_nil_of_noPoint (htext ▸ hpoint)
        obtain ⟨e, rfl, hletter⟩ := exists_some_of_letter hb hstops.noLetter htext
        exact ⟨e, hletter, htext, hstops.noDigit, by simpa [tail?, fit] using hv⟩
  · rw [afterDigits_point, fraction_eq_ok_iff]
    constructor
    · rintro ⟨ds, e, hds, hne, rfl, hrest, hl, hv⟩
      refine ⟨ds, e, hds, ?_, ⟨hrest, hl, fun _ h => absurd h hne⟩, hv⟩
      rw [fractionText_of_ne hne, List.cons_append]
    · rintro ⟨ds, e, hds, htext, hstops, hv⟩
      have hne := ne_nil_of_point hstops.noPoint htext
      rw [fractionText_of_ne hne, List.cons_append] at htext
      exact ⟨ds, e, hds, hne, (List.cons.inj htext).2, hstops.noDigit, hstops.noLetter, hv⟩

end Tail

theorem longDigits_append {ds : Bytes} (hds : Digits ds) (significand moved : Nat) (rest : Bytes) :
    longDigits negative significand moved (ds ++ rest) =
      longDigits negative significand (moved + ds.length) rest := by
  induction ds generalizing moved with
  | nil => rfl
  | cons b ds ih =>
    obtain ⟨hb, hds⟩ := List.forall_mem_cons.mp hds
    rw [List.cons_append, longDigits, if_pos hb, ih hds, List.length_cons, Nat.add_assoc,
      Nat.add_comm 1]

theorem wholeDigits_append {ds rest : Bytes} (hds : Digits ds) (hrest : NoDigit rest)
    (significand : Nat) :
    wholeDigits negative significand (ds ++ rest) =
      afterDigits negative (fit significand ds).1 (fit significand ds).2 rest := by
  induction ds generalizing significand with
  | nil =>
    cases rest with
    | nil => rfl
    | cons b rest =>
      have hb : digit? b = none := hrest b rfl
      simp only [List.nil_append, wholeDigits, hb]
      rfl
  | cons b ds ih =>
    have hlong := longDigits_append negative hds significand 0 rest
    obtain ⟨hb, hds⟩ := List.forall_mem_cons.mp hds
    obtain ⟨d, hd⟩ := Option.isSome_iff_exists.mp hb
    rw [List.cons_append] at hlong ⊢
    simp only [wholeDigits, hd, fit, Option.getD_some]
    by_cases hlt : maxWord < significand * 10 + d
    · rw [if_pos hlt, if_pos hlt, hlong, Nat.zero_add, afterDigits, if_neg (Nat.succ_ne_zero _)]
      rfl
    · rw [if_neg hlt, if_neg hlt, ih hds]

theorem fit_cases (n : Nat) (ds : Bytes) (hn : n ≤ maxWord) :
    fit n ds = (extend n ds, 0) ∧ extend n ds ≤ maxWord ∨
      (fit n ds).2 ≠ 0 ∧ maxWord < extend n ds := by
  induction ds generalizing n with
  | nil => exact .inl ⟨rfl, hn⟩
  | cons b ds ih =>
    rw [fit, extend_cons]
    by_cases hlt : maxWord < n * 10 + (digit? b).getD 0
    · rw [if_pos hlt]
      exact .inr ⟨Nat.succ_ne_zero _, Nat.lt_of_lt_of_le hlt (le_extend _ ds)⟩
    · rw [if_neg hlt]
      exact ih _ (Nat.not_lt.mp hlt)

theorem value?_of_fits {n : Numeral} (hplain : n.fraction = [] ∧ n.exponent = none)
    (hfits : n.magnitude ≤ maxWord) : n.value? = some (whole n.negative n.magnitude) := by
  have hmax : maxWord = 0xffffffffffffffff := rfl
  have hdouble : n.double? = some (.float (-(UInt64.ofNat n.magnitude).toFloat)) :=
    if_pos ⟨hplain.1, hplain.2, hfits⟩
  rw [Numeral.value?, Numeral.integer?, hdouble]
  cases hneg : n.negative with
  | false =>
    rw [if_pos ⟨hplain.1, hplain.2, by simp⟩]
    exact if_pos (by simp only [Bool.false_eq_true, if_false]; omega)
  | true =>
    by_cases hzero : n.magnitude = 0
    · rw [if_neg fun h => h.2.2 ⟨rfl, hzero⟩]
      simp [whole, hzero]
    · rw [if_pos ⟨hplain.1, hplain.2, fun h => hzero h.2⟩]
      simp only [if_true, whole, Bool.not_true, Bool.false_eq_true, if_false, hzero, false_or]
      by_cases hlow : 0x8000000000000000 < n.magnitude
      · rw [if_neg (by omega), if_pos hlow]
      · rw [if_pos (by omega), if_neg hlow]

theorem value?_of_not_fits {n : Numeral}
    (h : ¬(n.fraction = [] ∧ n.exponent = none ∧ n.magnitude ≤ maxWord)) :
    n.value? =
      scaled? n.negative (fit (fit 0 n.whole).1 n.fraction).1
        ((fit 0 n.whole).2 -
          (n.fraction.length - (fit (fit 0 n.whole).1 n.fraction).2 : Nat)) n.exponent := by
  have hmax : maxWord = 0xffffffffffffffff := rfl
  have hdouble : n.value? = n.double? := by
    rw [Numeral.value?, Numeral.integer?]
    by_cases hplain : n.fraction = [] ∧ n.exponent = none
    · have hbig : maxWord < n.magnitude := Nat.not_le.mp fun hle => h ⟨hplain.1, hplain.2, hle⟩
      rw [if_pos ⟨hplain.1, hplain.2, by omega⟩]
      exact if_neg (by split <;> omega)
    · rw [if_neg fun hp => hplain ⟨hp.1, hp.2.1⟩]
  rw [hdouble, Numeral.double?, if_neg h]

theorem value?_eq_tail? (n : Numeral) :
    n.value? = tail? n.negative (fit 0 n.whole).1 (fit 0 n.whole).2 n.fraction n.exponent := by
  unfold tail?
  split
  · next h =>
    rcases fit_cases 0 n.whole (Nat.zero_le _) with ⟨hfit, hle⟩ | ⟨hmoved, -⟩
    · rw [value?_of_fits h.2 hle, hfit]
      rfl
    · exact absurd h.1 hmoved
  · next h =>
    refine value?_of_not_fits fun ⟨hfraction, hexponent, hle⟩ => ?_
    rcases fit_cases 0 n.whole (Nat.zero_le _) with ⟨hfit, -⟩ | ⟨-, hlt⟩
    · exact h ⟨by rw [hfit], hfraction, hexponent⟩
    · exact Nat.not_le.mpr hlt hle

def IsWhole (ds : Bytes) : Prop :=
  Digits ds ∧ (ds = [0x30] ∨ ∃ b ds', ds = b :: ds' ∧ b ≠ 0x30)

theorem digit?_eq_some_zero_iff {b : UInt8} : digit? b = some 0 ↔ b = 0x30 := by
  constructor
  · intro h
    unfold digit? at h
    split at h
    · next hb =>
      have hle : 0x30 ≤ b.toNat := UInt8.le_iff_toNat_le.mp hb.1
      have hsub := Option.some.inj h
      exact UInt8.toNat_inj.mp (Nat.le_antisymm (Nat.le_of_sub_eq_zero hsub) hle)
    · cases h
  · rintro rfl
    rfl

theorem unsigned_of_isWhole {ds rest : Bytes} (hds : IsWhole ds) (hrest : NoDigit rest) :
    unsigned negative (ds ++ rest) =
      afterDigits negative (fit 0 ds).1 (fit 0 ds).2 rest := by
  obtain ⟨hds, rfl | ⟨b, ds, rfl, hb⟩⟩ := hds
  · have hhead : rest.head?.bind digit? = none := by
      cases rest with
      | nil => rfl
      | cons b rest => exact hrest b rfl
    have hzero : digit? 0x30 = some 0 := rfl
    simp only [List.cons_append, List.nil_append, unsigned, hzero, hhead]
    rfl
  · obtain ⟨hdigit, hds⟩ := List.forall_mem_cons.mp hds
    obtain ⟨d, hd⟩ := Option.isSome_iff_exists.mp hdigit
    have hle : d ≤ maxWord := Nat.le_trans (digit?_le hd) (by decide)
    have hfit : fit 0 (b :: ds) = fit d ds := by
      simp only [fit, hd, Option.getD_some, Nat.zero_mul, Nat.zero_add, if_neg (Nat.not_lt.mpr hle)]
    rw [List.cons_append, hfit, ← wholeDigits_append negative hds hrest, unsigned]
    split
    · next h => rw [hd] at h; cases h
    · next h => exact absurd (digit?_eq_some_zero_iff.mp h) hb
    · next h => rw [hd] at h; rw [Option.some.inj h]

theorem exists_whole_of_unsigned {bs rest : Bytes} {v : Value}
    (h : unsigned negative bs = .ok (v, rest)) :
    ∃ ds rest', IsWhole ds ∧ NoDigit rest' ∧ bs = ds ++ rest' := by
  cases bs with
  | nil => cases h
  | cons b bs =>
    cases hd : digit? b with
    | none =>
      simp only [unsigned, hd] at h
      cases h
    | some d =>
      by_cases hb : b = 0x30
      · subst hb
        refine ⟨[0x30], bs, ⟨by simp [Digits, hd], .inl rfl⟩, ?_, rfl⟩
        intro b hb
        cases hdigit : digit? b with
        | none => rfl
        | some d' =>
          have hzero : digit? 0x30 = some 0 := rfl
          have hhead : bs.head?.bind digit? = some d' := by rw [hb, Option.bind_some, hdigit]
          simp only [unsigned, hzero, hhead] at h
          cases h
      · obtain ⟨ds, rest', hds, hrest, rfl⟩ := split_digits bs
        refine ⟨b :: ds, rest', ⟨?_, .inr ⟨b, ds, rfl, hb⟩⟩, hrest, rfl⟩
        exact List.forall_mem_cons.mpr ⟨by rw [hd]; rfl, hds⟩

theorem unsigned_eq_ok_iff {bs rest : Bytes} {v : Value} :
    unsigned negative bs = .ok (v, rest) ↔
      ∃ n : Numeral, n.negative = negative ∧ bs = n.digits ++ rest ∧
        Stops n.fraction n.exponent rest ∧ n.value? = some v := by
  constructor
  · intro h
    obtain ⟨ds, rest', hds, hrest, rfl⟩ := exists_whole_of_unsigned negative h
    rw [unsigned_of_isWhole negative hds hrest, afterDigits_eq_ok_iff _ _ _ hrest] at h
    obtain ⟨fraction, e, hfraction, rfl, hstops, hv⟩ := h
    let n : Numeral := ⟨negative, ds, fraction, e, hds.1, hds.2, hfraction⟩
    refine ⟨n, rfl, ?_, hstops, by rw [value?_eq_tail?]; exact hv⟩
    simp only [n, Numeral.digits, List.append_assoc]
  · rintro ⟨n, rfl, rfl, hstops, hv⟩
    have hrest : NoDigit (fractionText n.fraction ++ (exponentText n.exponent ++ rest)) := by
      cases hfraction : n.fraction with
      | nil => exact noDigit_exponentText hstops.noDigit n.exponent
      | cons b ds =>
        intro c hc
        obtain rfl : 0x2e = c := Option.some.inj hc
        rfl
    rw [value?_eq_tail?] at hv
    rw [Numeral.digits, List.append_assoc, List.append_assoc,
      unsigned_of_isWhole _ ⟨n.wholeDigits, n.wholeStart⟩ hrest, afterDigits_eq_ok_iff _ _ _ hrest]
    exact ⟨n.fraction, n.exponent, n.fractionDigits, rfl, hstops, hv⟩

end Number

end BuildWatch.Json
