import BuildWatch.Proofs.Json.Characters
import BuildWatch.Proofs.Json.Number
import Mathlib.Data.List.TakeWhile

namespace BuildWatch.Json

/-- What can come after a value: a blank, a comma, a closing bracket, or nothing. -/
def Follow (bs : Bytes) : Prop := ∀ b ∈ bs.head?, isBlank b = true ∨ b = 0x2c ∨ b = 0x5d ∨ b = 0x7d

variable {bs rest before after text : Bytes} {b : UInt8} {v : Value}

section Blanks

theorem follow_of_blank (h : Blank after) (hrest : Follow rest) : Follow (after ++ rest) := by
  cases after with
  | nil => exact hrest
  | cons b after =>
    intro c hc
    obtain rfl : b = c := Option.some.inj hc
    exact .inl (h b List.mem_cons_self)

theorem Follow.stops (h : Follow bs) (fraction : Bytes) (e : Option Exponent) :
    Number.Stops fraction e bs := by
  have hb : ∀ b ∈ bs.head?,
      digit? b = none ∧ Number.isExponentLetter b = false ∧ b ≠ 0x2e := by
    intro b hb
    have hclose := h b hb
    simp only [isBlank, Bool.or_eq_true, decide_eq_true_eq] at hclose
    rcases hclose with (((rfl | rfl) | rfl) | rfl) | rfl | rfl | rfl <;> decide
  exact ⟨fun b h => (hb b h).1, fun _ b h => (hb b h).2.1, fun _ _ b h => (hb b h).2.2⟩

theorem skipBlank_append (h : Blank before) (bs : Bytes) :
    skipBlank (before ++ bs) = skipBlank bs :=
  List.dropWhile_append_of_pos h

theorem skipBlank_cons (h : isBlank b = false) (bs : Bytes) : skipBlank (b :: bs) = b :: bs :=
  List.dropWhile_cons_of_neg (by rw [h]; decide)

theorem skipBlank_eq_nil_iff : skipBlank bs = [] ↔ Blank bs := List.dropWhile_eq_nil_iff

theorem exists_blank (bs : Bytes) : ∃ before, Blank before ∧ bs = before ++ skipBlank bs :=
  ⟨bs.takeWhile isBlank, fun _ h => List.mem_takeWhile_imp h, List.takeWhile_append_dropWhile.symm⟩

theorem exists_of_skipBlank (h : skipBlank bs = b :: rest) :
    ∃ before, Blank before ∧ bs = before ++ b :: rest ∧ isBlank b = false := by
  obtain ⟨before, hbefore, he⟩ := exists_blank bs
  rw [h] at he
  refine ⟨before, hbefore, he, ?_⟩
  have hnot := List.head?_dropWhile_not isBlank bs
  rw [show bs.dropWhile isBlank = b :: rest from h] at hnot
  simpa using hnot

end Blanks

section Scalars

theorem word_eq_ok_iff {v' : Value} {w : Bytes} :
    word v w bs = .ok (v', rest) ↔ v' = v ∧ bs = w ++ rest := by
  induction w generalizing bs with
  | nil => simp [word, eq_comm]
  | cons c w ih =>
    cases bs with
    | nil => simp [word]
    | cons b bs =>
      by_cases hb : b = c
      · rw [word, if_pos hb, ih, hb]
        simp
      · rw [word, if_neg hb]
        simp [hb]

theorem eq_of_charOfNat {c : Char} (h : Char.ofNat b.toNat = c) : b = UInt8.ofNat c.toNat := by
  have hb := b.toNat_lt
  have hc : (Char.ofNat b.toNat).toNat = b.toNat := Utf8.toNat_ofNat_of_scalar (.inl (by omega))
  rw [← h, hc, UInt8.ofNat_toNat]

theorem scalar_of_digit (h : (digit? b).isSome) (bs : Bytes) :
    scalar b bs = Number.unsigned false (b :: bs) := by
  unfold scalar
  split
  case h_6 => rw [if_pos h]
  all_goals
    next hb =>
      rw [eq_of_charOfNat hb] at h
      cases h

theorem exists_digits_cons (n : Numeral) : ∃ b more, n.digits = b :: more ∧ (digit? b).isSome := by
  have hdigits := n.wholeDigits
  obtain ⟨b, ds, h⟩ : ∃ b ds, n.whole = b :: ds := by
    rcases n.wholeStart with h | ⟨b, ds, h, -⟩
    · exact ⟨_, _, h⟩
    · exact ⟨b, ds, h⟩
  rw [h] at hdigits
  exact ⟨b, _, by rw [Numeral.digits, h, List.cons_append], hdigits b List.mem_cons_self⟩

theorem scalar_sound (h : scalar b bs = .ok (v, rest)) :
    ∃ text, Scalar (b :: text) v ∧ bs = text ++ rest := by
  unfold scalar at h
  split at h
  · next hb =>
    obtain ⟨rfl, rfl⟩ := word_eq_ok_iff.mp h
    rw [eq_of_charOfNat hb]
    exact ⟨_, .null, rfl⟩
  · next hb =>
    obtain ⟨rfl, rfl⟩ := word_eq_ok_iff.mp h
    rw [eq_of_charOfNat hb]
    exact ⟨_, .true, rfl⟩
  · next hb =>
    obtain ⟨rfl, rfl⟩ := word_eq_ok_iff.mp h
    rw [eq_of_charOfNat hb]
    exact ⟨_, .false, rfl⟩
  · next hb =>
    split at h
    · cases h
    · next s rest' hs =>
      obtain ⟨rfl, rfl⟩ := Prod.mk.inj (Except.ok.inj h)
      obtain ⟨text, htext, rfl⟩ := string_eq_ok_iff.mp hs
      refine ⟨text ++ [0x22], ?_, by simp⟩
      rw [eq_of_charOfNat hb]
      exact .string ⟨text, htext, rfl⟩
  · next hb =>
    obtain ⟨n, hn, rfl, -, hv⟩ := (Number.unsigned_eq_ok_iff true).mp h
    refine ⟨n.digits, ?_, rfl⟩
    have htext : n.text = b :: n.digits := by rw [Numeral.text, hn, eq_of_charOfNat hb]; rfl
    rw [← htext]
    exact .number n hv
  · split at h
    · obtain ⟨n, hn, htext, -, hv⟩ := (Number.unsigned_eq_ok_iff false).mp h
      obtain ⟨b', more, hdigits, -⟩ := exists_digits_cons n
      rw [hdigits] at htext
      obtain ⟨rfl, rfl⟩ := List.cons.inj htext
      refine ⟨more, ?_, rfl⟩
      have hn : n.text = b :: more := by rw [Numeral.text, hn, hdigits]; rfl
      rw [← hn]
      exact .number n hv
    · cases h

theorem scalar_complete (h : Scalar text v) (hrest : Follow rest) :
    ∃ b more, text = b :: more ∧ scalar b (more ++ rest) = .ok (v, rest) := by
  cases h with
  | null => exact ⟨_, [0x75, 0x6c, 0x6c], rfl, rfl⟩
  | true => exact ⟨_, [0x72, 0x75, 0x65], rfl, rfl⟩
  | false => exact ⟨_, [0x61, 0x6c, 0x73, 0x65], rfl, rfl⟩
  | string h =>
    obtain ⟨text, htext, rfl⟩ := h
    refine ⟨0x22, text ++ [0x22], rfl, ?_⟩
    have hs := string_eq_ok_iff.mpr ⟨text, htext, (rfl : text ++ 0x22 :: rest = _)⟩
    simp [scalar, hs]
  | number n hv =>
    have hstops := hrest.stops n.fraction n.exponent
    cases hn : n.negative with
    | true =>
      have hread := (Number.unsigned_eq_ok_iff true).mpr ⟨n, hn, rfl, hstops, hv⟩
      exact ⟨0x2d, n.digits, by rw [Numeral.text, hn]; rfl, hread⟩
    | false =>
      obtain ⟨b, more, hdigits, hb⟩ := exists_digits_cons n
      have hread := (Number.unsigned_eq_ok_iff false).mpr ⟨n, hn, rfl, hstops, hv⟩
      rw [hdigits] at hread
      refine ⟨b, more, by rw [Numeral.text, hn, hdigits]; rfl, ?_⟩
      rw [scalar_of_digit hb]
      exact hread

theorem Scalar.exists_cons (h : Scalar text v) :
    ∃ b more, text = b :: more ∧ isBlank b = Bool.false ∧ b ≠ 0x5b ∧ b ≠ 0x5d ∧ b ≠ 0x7b := by
  have hdigit : ∀ b, (digit? b).isSome →
      isBlank b = Bool.false ∧ b ≠ 0x5b ∧ b ≠ 0x5d ∧ b ≠ 0x7b := by
    have hnone : ∀ b, isBlank b = Bool.true ∨ b = 0x5b ∨ b = 0x5d ∨ b = 0x7b → digit? b = none := by
      intro b h
      simp only [isBlank, Bool.or_eq_true, decide_eq_true_eq] at h
      rcases h with (((rfl | rfl) | rfl) | rfl) | rfl | rfl | rfl <;> rfl
    intro b hb
    by_contra h
    rw [hnone b (by grind)] at hb
    cases hb
  cases h with
  | null | true | false => exact ⟨_, _, rfl, by decide⟩
  | string h =>
    obtain ⟨text, -, rfl⟩ := h
    exact ⟨_, _, rfl, by decide⟩
  | number n hv =>
    obtain ⟨b, more, hdigits, hb⟩ := exists_digits_cons n
    cases hn : n.negative with
    | true => exact ⟨0x2d, n.digits, by rw [Numeral.text, hn]; rfl, by decide⟩
    | false => exact ⟨b, more, by rw [Numeral.text, hn, hdigits]; rfl, hdigit b hb⟩

end Scalars

/-- That a reader of items agrees with a grammar for them. It can skip blanks in front of an item,
and it has room for the items up to a length. -/
structure Reads (spelled : Bytes → Value → Prop) (room : Nat) (item : Bytes → Step Value) :
    Prop where
  start : ∀ {text v}, spelled text v →
    ∃ b more, text = b :: more ∧ isBlank b = false ∧ b ≠ 0x5d
  sound : ∀ {bs v rest}, item bs = .ok (v, rest) →
    ∃ before text, Blank before ∧ spelled text v ∧ bs = before ++ (text ++ rest)
  complete : ∀ {before text v rest}, Blank before → spelled text v → text.length ≤ room →
    Follow rest → item (before ++ (text ++ rest)) = .ok (v, rest)

theorem Separated.padLeft {α : Type} {item : Bytes → α → Prop} {texts : Bytes} {as : List α}
    (hb : Blank before) (h : Separated (Padded item) texts as) :
    Separated (Padded item) (before ++ texts) as := by
  have hpad : ∀ {text a}, Padded item text a → Padded item (before ++ text) a := by
    rintro _ a ⟨before', text, after, hb', ht, ha, rfl⟩
    refine ⟨before ++ before', text, after, ?_, ht, ha, by rw [List.append_assoc]⟩
    exact fun b hmem => (List.mem_append.mp hmem).elim (hb b) (hb' b)
  cases h with
  | one h => exact .one (hpad h)
  | cons h hs =>
    rw [← List.append_assoc]
    exact .cons (hpad h) hs

section Lists

variable {spelled : Bytes → Value → Prop} {room : Nat} {item : Bytes → Step Value}

theorem listItems_sound (hr : Reads spelled room item) {fuel : Nat} {done : List Value}
    (h : listItems item fuel done bs = .ok (v, rest)) :
    ∃ texts items, Separated (Padded spelled) texts items ∧ bs = texts ++ 0x5d :: rest ∧
      v = .array (done.reverse ++ items) := by
  induction fuel generalizing done bs with
  | zero => cases h
  | succ fuel ih =>
    rw [listItems] at h
    split at h
    · cases h
    · next v' rest' hitem =>
      obtain ⟨before, text, hbefore, htext, rfl⟩ := hr.sound hitem
      split at h
      · cases h
      · next b rest'' hskip =>
        obtain ⟨after, hafter, rfl, -⟩ := exists_of_skipBlank hskip
        have hpadded : Padded spelled (before ++ (text ++ after)) v' :=
          ⟨before, text, after, hbefore, htext, hafter, rfl⟩
        split at h
        · next hb =>
          obtain ⟨rfl, rfl⟩ := Prod.mk.inj (Except.ok.inj h)
          exact ⟨_, [v'], .one hpadded, by simp [hb], by simp⟩
        · split at h
          · next hb =>
            split at h
            · cases h
            · next c rest hskip =>
              obtain ⟨blanks, hblanks, rfl, -⟩ := exists_of_skipBlank hskip
              split at h
              · cases h
              · obtain ⟨texts, items, hs, hrest, rfl⟩ := ih h
                refine ⟨_, v' :: items, .cons hpadded (hs.padLeft hblanks), ?_, by simp⟩
                simp [hb, hrest]
          · cases h

theorem exists_item (hr : Reads spelled room item) (hp : Padded spelled text v)
    (hroom : text.length ≤ room) (hb : b = 0x2c ∨ b = 0x5d) (rest : Bytes) :
    ∃ c more rest', skipBlank (text ++ b :: rest) = c :: more ∧ c ≠ 0x5d ∧
      item (c :: more) = .ok (v, rest') ∧ skipBlank rest' = b :: rest := by
  obtain ⟨before, text, after, hbefore, htext, hafter, rfl⟩ := hp
  obtain ⟨c, more, rfl, hc, hne⟩ := hr.start htext
  have hfollow : Follow (after ++ b :: rest) := by
    refine follow_of_blank hafter fun b' hb' => ?_
    obtain rfl : b = b' := Option.some.inj hb'
    exact .inr (hb.imp_right .inl)
  have hblank : isBlank b = false := by rcases hb with rfl | rfl <;> rfl
  simp only [List.length_append] at hroom
  refine ⟨c, more ++ (after ++ b :: rest), after ++ b :: rest, ?_, hne, ?_, ?_⟩
  · rw [List.append_assoc, List.append_assoc, skipBlank_append hbefore, List.cons_append,
      skipBlank_cons hc]
  · exact hr.complete blank_nil htext (by omega) hfollow
  · rw [skipBlank_append hafter, skipBlank_cons hblank]

theorem listItems_complete (hr : Reads spelled room item) {texts : Bytes} {items : List Value}
    (hs : Separated (Padded spelled) texts items) (hroom : texts.length ≤ room)
    {fuel : Nat} (hfuel : texts.length < fuel) (done : List Value) (rest : Bytes) :
    ∃ b more, skipBlank (texts ++ 0x5d :: rest) = b :: more ∧ b ≠ 0x5d ∧
      listItems item fuel done (b :: more) = .ok (.array (done.reverse ++ items), rest) := by
  obtain ⟨fuel, rfl⟩ := Nat.exists_eq_succ_of_ne_zero (Nat.ne_zero_of_lt hfuel)
  -- an item costs one unit of fuel, and with its comma at least one byte of the text
  induction hs generalizing fuel done with
  | one h =>
    obtain ⟨b, more, rest', hskip, hne, hitem, hafter⟩ := exists_item hr h hroom (.inr rfl) rest
    refine ⟨b, more, hskip, hne, ?_⟩
    simp only [listItems, hitem, hafter, if_true, List.reverse_cons]
  | @cons text texts v items h hs ih =>
    simp only [List.length_append, List.length_cons] at hroom hfuel
    obtain ⟨b, more, rest', hskip, hne, hitem, hafter⟩ :=
      exists_item hr h (by omega) (.inl rfl) (texts ++ 0x5d :: rest)
    obtain ⟨fuel, rfl⟩ := Nat.exists_eq_succ_of_ne_zero (n := fuel) (by omega)
    obtain ⟨c, more', hskip', hne', hread⟩ := ih (by omega) (v :: done) fuel (by omega)
    refine ⟨b, more, by rw [List.append_assoc]; exact hskip, hne, ?_⟩
    rw [listItems]
    simp only [hitem, hafter, hskip', if_neg hne', hread, List.reverse_cons, List.append_assoc]
    rfl

theorem list_sound (hr : Reads spelled room item) (h : list item room bs = .ok (v, rest)) :
    ∃ text items, Enclosed spelled 0x5b 0x5d (0x5b :: text) items ∧ bs = text ++ rest ∧
      v = .array items := by
  rw [list] at h
  split at h
  · cases h
  · next b rest' hskip =>
    obtain ⟨blanks, hblanks, rfl, -⟩ := exists_of_skipBlank hskip
    split at h
    · next hb =>
      obtain ⟨rfl, rfl⟩ := Prod.mk.inj (Except.ok.inj h)
      exact ⟨blanks ++ [0x5d], [], .empty hblanks, by simp [hb], rfl⟩
    · obtain ⟨texts, items, hs, hrest, rfl⟩ := listItems_sound hr h
      exact ⟨_, items, .full (hs.padLeft hblanks), by simp [hrest], rfl⟩

theorem list_complete (hr : Reads spelled room item) {items : List Value}
    (h : Enclosed spelled 0x5b 0x5d text items) (hroom : text.length ≤ room) (rest : Bytes) :
    ∃ more, text = 0x5b :: more ∧ list item room (more ++ rest) = .ok (.array items, rest) := by
  cases h with
  | @empty blanks h =>
    refine ⟨_, rfl, ?_⟩
    have hskip : skipBlank (blanks ++ [0x5d] ++ rest) = 0x5d :: rest := by
      rw [List.append_assoc, skipBlank_append h]
      rfl
    simp only [list, hskip, if_true]
  | @full texts _ hs =>
    simp only [List.length_append, List.length_cons] at hroom
    have hfuel : texts.length < room := by omega
    obtain ⟨b, more, hskip, hne, hread⟩ := listItems_complete hr hs (by omega) hfuel [] rest
    refine ⟨_, rfl, ?_⟩
    rw [List.append_assoc, list]
    simp only [List.cons_append, List.nil_append, hskip, if_neg hne, hread, List.reverse_nil]

end Lists

section Objects

variable {spelled : Bytes → Value → Prop} {room : Nat} {item : Bytes → Step Value}
  {m : String × Value}

theorem member_sound (hr : Reads spelled room item) (h : member item bs = .ok (m, rest)) :
    ∃ text, Member spelled (0x22 :: text) m ∧ bs = text ++ rest := by
  rw [member] at h
  split at h
  · cases h
  · next name rest₁ hname =>
    obtain ⟨inner, hinner, rfl⟩ := string_eq_ok_iff.mp hname
    split at h
    · cases h
    · next b rest₂ hskip =>
      obtain ⟨blanks, hblanks, rfl, -⟩ := exists_of_skipBlank hskip
      split at h
      · next hb =>
        split at h
        · cases h
        · next v rest₃ hitem =>
          obtain ⟨before, text, hbefore, htext, rfl⟩ := hr.sound hitem
          obtain ⟨rfl, rfl⟩ := Prod.mk.inj (Except.ok.inj h)
          refine ⟨_, ⟨_, blanks, before, text, ⟨inner, hinner, rfl⟩, hblanks, hbefore, htext, rfl⟩, ?_⟩
          simp [hb]
      · cases h

theorem objectMembers_sound (hr : Reads spelled room item) {fuel : Nat}
    {done : List (String × Value)} (h : objectMembers item fuel done bs = .ok (v, rest)) :
    ∃ texts members, Separated (Padded (Member spelled)) (0x22 :: texts) members ∧
      bs = texts ++ 0x7d :: rest ∧ v = .object (done.reverse ++ members) := by
  induction fuel generalizing done bs with
  | zero => cases h
  | succ fuel ih =>
    rw [objectMembers] at h
    split at h
    · cases h
    · next m rest' hmember =>
      obtain ⟨text, htext, rfl⟩ := member_sound hr hmember
      split at h
      · cases h
      · next b rest'' hskip =>
        obtain ⟨after, hafter, rfl, -⟩ := exists_of_skipBlank hskip
        have hpadded : Padded (Member spelled) (0x22 :: (text ++ after)) m :=
          ⟨[], 0x22 :: text, after, blank_nil, htext, hafter, rfl⟩
        split at h
        · next hb =>
          obtain ⟨rfl, rfl⟩ := Prod.mk.inj (Except.ok.inj h)
          exact ⟨_, [m], .one hpadded, by simp [hb], by simp⟩
        · split at h
          · next hb =>
            split at h
            · cases h
            · next c rest hskip =>
              obtain ⟨blanks, hblanks, rfl, -⟩ := exists_of_skipBlank hskip
              split at h
              · next hc =>
                obtain ⟨texts, members, hs, hrest, rfl⟩ := ih h
                refine ⟨_, m :: members, .cons hpadded (hs.padLeft hblanks), ?_, by simp⟩
                simp [hb, hc, hrest]
              · split at h <;> cases h
          · cases h

theorem object_sound (hr : Reads spelled room item) (h : object item room bs = .ok (v, rest)) :
    ∃ text members, Enclosed (Member spelled) 0x7b 0x7d (0x7b :: text) members ∧
      bs = text ++ rest ∧ v = .object members := by
  rw [object] at h
  split at h
  · cases h
  · next b rest' hskip =>
    obtain ⟨blanks, hblanks, rfl, -⟩ := exists_of_skipBlank hskip
    split at h
    · next hb =>
      obtain ⟨rfl, rfl⟩ := Prod.mk.inj (Except.ok.inj h)
      exact ⟨blanks ++ [0x7d], [], .empty hblanks, by simp [hb], rfl⟩
    · split at h
      · next hb =>
        obtain ⟨texts, members, hs, hrest, rfl⟩ := objectMembers_sound hr h
        exact ⟨_, members, .full (hs.padLeft hblanks), by simp [hb, hrest], rfl⟩
      · cases h

theorem member_complete (hr : Reads spelled room item) (h : Member spelled text m)
    (hroom : text.length ≤ room) (hrest : Follow rest) :
    ∃ more, text = 0x22 :: more ∧ member item (more ++ rest) = .ok (m, rest) := by
  obtain ⟨_, blanks, before, text, ⟨inner, hinner, rfl⟩, hblanks, hbefore, htext, rfl⟩ := h
  simp only [List.length_append, List.length_cons] at hroom
  have hname := string_eq_ok_iff.mpr
    ⟨inner, hinner, (rfl : inner ++ 0x22 :: (blanks ++ 0x3a :: (before ++ (text ++ rest))) = _)⟩
  have hskip : skipBlank (blanks ++ 0x3a :: (before ++ (text ++ rest))) =
      0x3a :: (before ++ (text ++ rest)) := by
    rw [skipBlank_append hblanks]
    rfl
  have hitem := hr.complete hbefore htext (by omega) hrest
  refine ⟨inner ++ 0x22 :: (blanks ++ 0x3a :: (before ++ text)), by simp, ?_⟩
  simp only [List.append_assoc, List.cons_append, member, hname, hskip, if_true, hitem]

theorem exists_member (hr : Reads spelled room item) (hp : Padded (Member spelled) text m)
    (hroom : text.length ≤ room) (hb : b = 0x2c ∨ b = 0x7d) (rest : Bytes) :
    ∃ more rest', skipBlank (text ++ b :: rest) = 0x22 :: more ∧
      member item more = .ok (m, rest') ∧ skipBlank rest' = b :: rest := by
  obtain ⟨before, text, after, hbefore, htext, hafter, rfl⟩ := hp
  have hfollow : Follow (after ++ b :: rest) := by
    refine follow_of_blank hafter fun b' hb' => ?_
    obtain rfl : b = b' := Option.some.inj hb'
    exact .inr (hb.imp_right .inr)
  have hblank : isBlank b = false := by rcases hb with rfl | rfl <;> rfl
  simp only [List.length_append] at hroom
  obtain ⟨more, rfl, hread⟩ := member_complete hr htext (by omega) hfollow
  refine ⟨_, _, ?_, hread, ?_⟩
  · rw [List.append_assoc, List.append_assoc, skipBlank_append hbefore]
    rfl
  · rw [skipBlank_append hafter, skipBlank_cons hblank]

theorem objectMembers_complete (hr : Reads spelled room item) {texts : Bytes}
    {members : List (String × Value)} (hs : Separated (Padded (Member spelled)) texts members)
    (hroom : texts.length ≤ room) {fuel : Nat} (hfuel : texts.length < fuel)
    (done : List (String × Value)) (rest : Bytes) :
    ∃ more, skipBlank (texts ++ 0x7d :: rest) = 0x22 :: more ∧
      objectMembers item fuel done more = .ok (.object (done.reverse ++ members), rest) := by
  obtain ⟨fuel, rfl⟩ := Nat.exists_eq_succ_of_ne_zero (Nat.ne_zero_of_lt hfuel)
  induction hs generalizing fuel done with
  | one h =>
    obtain ⟨more, rest', hskip, hmember, hafter⟩ := exists_member hr h hroom (.inr rfl) rest
    refine ⟨more, hskip, ?_⟩
    simp only [objectMembers, hmember, hafter, if_true, List.reverse_cons]
  | @cons text texts m members h hs ih =>
    simp only [List.length_append, List.length_cons] at hroom hfuel
    obtain ⟨more, rest', hskip, hmember, hafter⟩ :=
      exists_member hr h (by omega) (.inl rfl) (texts ++ 0x7d :: rest)
    obtain ⟨fuel, rfl⟩ := Nat.exists_eq_succ_of_ne_zero (n := fuel) (by omega)
    obtain ⟨more', hskip', hread⟩ := ih (by omega) (m :: done) fuel (by omega)
    refine ⟨more, by rw [List.append_assoc]; exact hskip, ?_⟩
    rw [objectMembers]
    simp only [hmember, hafter, hskip', if_true, hread, List.reverse_cons, List.append_assoc]
    rfl

theorem object_complete (hr : Reads spelled room item) {members : List (String × Value)}
    (h : Enclosed (Member spelled) 0x7b 0x7d text members) (hroom : text.length ≤ room)
    (rest : Bytes) :
    ∃ more, text = 0x7b :: more ∧
      object item room (more ++ rest) = .ok (.object members, rest) := by
  cases h with
  | @empty blanks h =>
    refine ⟨_, rfl, ?_⟩
    have hskip : skipBlank (blanks ++ [0x7d] ++ rest) = 0x7d :: rest := by
      rw [List.append_assoc, skipBlank_append h]
      rfl
    simp only [object, hskip, if_true]
  | @full texts _ hs =>
    simp only [List.length_append, List.length_cons] at hroom
    have hfuel : texts.length < room := by omega
    obtain ⟨more, hskip, hread⟩ := objectMembers_complete hr hs (by omega) hfuel [] rest
    refine ⟨_, rfl, ?_⟩
    have hne : (0x22 : UInt8) ≠ 0x7d := by decide
    rw [List.append_assoc, object]
    simp only [List.cons_append, List.nil_append, hskip, if_neg hne, if_true, hread,
      List.reverse_nil]

end Objects

theorem Enclosed.start {α : Type} {item : Bytes → α → Prop} {opening closing : UInt8} {as : List α}
    (h : Enclosed item opening closing text as) : ∃ more, text = opening :: more := by
  cases h <;> exact ⟨_, rfl⟩

theorem Spelled.start {depth : Nat} (h : Spelled depth text v) :
    ∃ b more, text = b :: more ∧ isBlank b = false ∧ b ≠ 0x5d := by
  have hscalar : Scalar text v → ∃ b more, text = b :: more ∧ isBlank b = false ∧ b ≠ 0x5d := by
    intro h
    obtain ⟨b, more, rfl, hb, -, hne, -⟩ := h.exists_cons
    exact ⟨b, more, rfl, hb, hne⟩
  cases depth with
  | zero => exact hscalar h
  | succ depth =>
    rcases h with h | ⟨items, h, -⟩ | ⟨members, h, -⟩
    · exact hscalar h
    · obtain ⟨more, rfl⟩ := h.start
      exact ⟨_, more, rfl, by decide⟩
    · obtain ⟨more, rfl⟩ := h.start
      exact ⟨_, more, rfl, by decide⟩

theorem value_list {room depth : Nat} (hr : Reads (Spelled depth) room (value room depth))
    {items : List Value} (hbefore : Blank before)
    (h : Enclosed (Spelled depth) 0x5b 0x5d text items) (hroom : text.length ≤ room) :
    value room (depth + 1) (before ++ (text ++ rest)) = .ok (.array items, rest) := by
  obtain ⟨more, rfl, hread⟩ := list_complete hr h hroom rest
  have hskip : skipBlank (before ++ (0x5b :: more ++ rest)) = 0x5b :: (more ++ rest) := by
    rw [skipBlank_append hbefore]
    rfl
  rw [value]
  simp only [hskip, if_true, hread]

theorem value_object {room depth : Nat} (hr : Reads (Spelled depth) room (value room depth))
    {members : List (String × Value)} (hbefore : Blank before)
    (h : Enclosed (Member (Spelled depth)) 0x7b 0x7d text members) (hroom : text.length ≤ room) :
    value room (depth + 1) (before ++ (text ++ rest)) = .ok (.object members, rest) := by
  obtain ⟨more, rfl, hread⟩ := object_complete hr h hroom rest
  have hskip : skipBlank (before ++ (0x7b :: more ++ rest)) = 0x7b :: (more ++ rest) := by
    rw [skipBlank_append hbefore]
    rfl
  have hne : (0x7b : UInt8) ≠ 0x5b := by decide
  rw [value]
  simp only [hskip, if_neg hne, if_true, hread]

theorem value_scalar {room depth : Nat} (hbefore : Blank before) (h : Scalar text v)
    (hrest : Follow rest) :
    value room depth (before ++ (text ++ rest)) = .ok (v, rest) := by
  obtain ⟨b, more, rfl, hread⟩ := scalar_complete h hrest
  obtain ⟨b', more', he, hblank, hlist, -, hobject⟩ := h.exists_cons
  obtain ⟨rfl, rfl⟩ := List.cons.inj he
  have hskip : skipBlank (before ++ (b :: more ++ rest)) = b :: (more ++ rest) := by
    rw [skipBlank_append hbefore, List.cons_append, skipBlank_cons hblank]
  cases depth <;> rw [value] <;> simp only [hskip, hlist, hobject, or_self, if_false, hread]

theorem reads_value (room depth : Nat) : Reads (Spelled depth) room (value room depth) := by
  induction depth with
  | zero =>
    refine ⟨Spelled.start, ?_, fun hb h _ hrest => value_scalar hb h hrest⟩
    intro bs v rest h
    rw [value] at h
    split at h
    · cases h
    · next b rest' hskip =>
      obtain ⟨before, hbefore, rfl, -⟩ := exists_of_skipBlank hskip
      split at h
      · cases h
      · obtain ⟨text, htext, rfl⟩ := scalar_sound h
        exact ⟨before, b :: text, hbefore, htext, rfl⟩
  | succ depth ih =>
    refine ⟨Spelled.start, ?_, ?_⟩
    · intro bs v rest h
      rw [value] at h
      split at h
      · cases h
      · next b rest' hskip =>
        obtain ⟨before, hbefore, rfl, -⟩ := exists_of_skipBlank hskip
        split at h
        · next hb =>
          obtain ⟨text, items, htext, rfl, rfl⟩ := list_sound ih h
          exact ⟨before, 0x5b :: text, hbefore, .inr (.inl ⟨items, htext, rfl⟩), by rw [hb]; rfl⟩
        · split at h
          · next hb =>
            obtain ⟨text, members, htext, rfl, rfl⟩ := object_sound ih h
            exact ⟨before, 0x7b :: text, hbefore, .inr (.inr ⟨members, htext, rfl⟩), by rw [hb]; rfl⟩
          · obtain ⟨text, htext, rfl⟩ := scalar_sound h
            exact ⟨before, b :: text, hbefore, .inl htext, rfl⟩
    · rintro before text v rest hbefore (h | ⟨items, h, rfl⟩ | ⟨members, h, rfl⟩) hroom hrest
      · exact value_scalar hbefore h hrest
      · exact value_list ih hbefore h hroom
      · exact value_object ih hbefore h hroom

theorem read_eq_ok_iff {payload : Bytes} : read payload = .ok v ↔ IsText payload v := by
  have hr := reads_value payload.length maxDepth
  constructor
  · intro h
    rw [read] at h
    split at h
    · cases h
    · next v' rest hvalue =>
      split at h
      · next hskip =>
        obtain rfl := Except.ok.inj h
        obtain ⟨before, text, hbefore, htext, he⟩ := hr.sound hvalue
        exact ⟨before, text, rest, hbefore, htext, skipBlank_eq_nil_iff.mp hskip, he⟩
      · cases h
  · rintro ⟨before, text, after, hbefore, htext, hafter, rfl⟩
    have hfollow : Follow after := by
      rw [← List.append_nil after]
      exact follow_of_blank hafter nofun
    have hvalue := hr.complete hbefore htext (by simp only [List.length_append]; omega) hfollow
    rw [read, hvalue]
    simp only [skipBlank_eq_nil_iff.mpr hafter]

theorem parse_eq_ok_iff {payload : Bytes} : parse payload = .ok v ↔ IsText payload v := by
  rw [← read_eq_ok_iff, parse]
  cases read payload with
  | error fault => exact ⟨nofun, nofun⟩
  | ok v' =>
    exact ⟨fun h => congrArg Except.ok (Except.ok.inj h),
      fun h => congrArg Except.ok (Except.ok.inj h)⟩

end BuildWatch.Json
