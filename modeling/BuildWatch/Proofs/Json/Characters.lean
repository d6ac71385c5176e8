import BuildWatch.Proofs.Json.Grammar
import BuildWatch.Proofs.Text.Utf8

namespace BuildWatch.Json.Characters

open Utf8

structure Plain (b : UInt8) : Prop where
  control : 0x20 ≤ b
  quote : b ≠ 0x22
  backslash : b ≠ 0x5c

inductive Piece : Bytes → Bytes → Prop
  | plain {b : UInt8} (h : Plain b) : Piece [b] [b]
  | escape {text : Bytes} {c : Char} (h : Escape text c) : Piece text (String.utf8EncodeChar c)

inductive Pieces : Bytes → Bytes → Prop
  | nil : Pieces [] []
  | cons {text texts bytes bytes' : Bytes} (h : Piece text bytes) (hs : Pieces texts bytes') :
      Pieces (text ++ texts) (bytes ++ bytes')

variable {done bs : Bytes}

theorem body_plain {b : UInt8} (h : Plain b) (done bs : Bytes) :
    body done .plain (b :: bs) = body (b :: done) .plain bs := by
  rw [body, if_neg h.quote, if_neg h.backslash, if_neg (UInt8.not_lt.mpr h.control)]

def afterUnit (done : Bytes) (high : Option Nat) (digits bs : Bytes) : Step Bytes :=
  match unit16 high digits with
  | .fault cause => .error ⟨cause, bs, .here⟩
  | .high n => body done (.pairEscape n) bs
  | .char c => body ((String.utf8EncodeChar c).reverse ++ done) .plain bs

theorem body_hex {digits : Bytes} (h : digits.length = 4) (done : Bytes) (high : Option Nat)
    (bs : Bytes) : body done (.hex high []) (digits ++ bs) = afterUnit done high digits bs := by
  obtain ⟨a, b, c, d, rfl⟩ : ∃ a b c d, digits = [a, b, c, d] := by
    match digits, h with
    | [a, b, c, d], _ => exact ⟨a, b, c, d, rfl⟩
  simp only [List.cons_append, List.nil_append, body, List.length_cons, List.length_nil,
    Nat.reduceAdd, Nat.reduceLT, if_true, Nat.lt_irrefl, if_false]
  rfl

theorem exists_digits {high : Option Nat} {r : Bytes × Bytes}
    (h : body done (.hex high []) bs = .ok r) :
    ∃ digits rest, digits.length = 4 ∧ bs = digits ++ rest := by
  match bs, h with
  | a :: b :: c :: d :: rest, _ => exact ⟨[a, b, c, d], rest, rfl, rfl⟩
  | [], h | [_], h | [_, _], h | [_, _, _], h => simp [body] at h

theorem unit16_of_hex {digits : Bytes} {n : Nat} (h : Hex digits n)
    (hhigh : isHighSurrogate n = false) (hlow : isLowSurrogate n = false) :
    unit16 none digits = .char (Char.ofNat n) := by
  simp [unit16, h.2, hhigh, hlow]

theorem unit16_high {digits : Bytes} {n : Nat} (h : Hex digits n)
    (hhigh : isHighSurrogate n = true) : unit16 none digits = .high n := by
  have hlow : isLowSurrogate n = false := by
    simp only [isHighSurrogate, isLowSurrogate, Bool.and_eq_true, Bool.and_eq_false_iff,
      decide_eq_true_eq, decide_eq_false_iff_not] at *
    omega
  simp [unit16, h.2, hhigh, hlow]

theorem encodeChar_shortEscape {letter b : UInt8} (h : shortEscape? letter = some b) :
    String.utf8EncodeChar (Char.ofNat b.toNat) = [b] := by
  unfold shortEscape? at h
  split at h <;> first | cases h; rfl | cases h

theorem body_escape {text : Bytes} {c : Char} (h : Escape text c) (done bs : Bytes) :
    body done .plain (text ++ bs) = body ((String.utf8EncodeChar c).reverse ++ done) .plain bs := by
  have hescape : ∀ bs, body done .plain (0x5c :: bs) = body done .escape bs := fun bs => rfl
  have hunit : ∀ bs, body done .escape (0x75 :: bs) = body done (.hex none []) bs := fun bs => rfl
  cases h with
  | @short letter b h =>
    have hu : letter ≠ 0x75 := by
      rintro rfl
      cases h
    rw [encodeChar_shortEscape h]
    simp only [List.cons_append, List.nil_append, hescape, body, if_neg hu, h, List.reverse_cons,
      List.reverse_nil]
  | unit hn hhigh hlow =>
    rw [List.cons_append, List.cons_append, hescape, hunit, body_hex hn.1, afterUnit,
      unit16_of_hex hn hhigh hlow]
  | @pair digits digits' high low hh hl hhigh hlow =>
    have hpair : ∀ bs, body done (.pairEscape high) (0x5c :: 0x75 :: bs) =
        body done (.hex (some high) []) bs := fun bs => rfl
    simp only [List.cons_append, List.append_assoc]
    rw [hescape, hunit, body_hex hh.1, afterUnit, unit16_high hh hhigh]
    dsimp only
    rw [hpair, body_hex hl.1, afterUnit]
    simp [unit16, hl.2, hlow]

theorem plain_of_encodeChar {c : Char} (hcontrol : 0x20 ≤ c.toNat) (hquote : c ≠ '"')
    (hbackslash : c ≠ '\\') : ∀ b ∈ String.utf8EncodeChar c, Plain b := by
  have hplain : ∀ b : UInt8, 0x20 ≤ b.toNat → b.toNat ≠ 0x22 → b.toNat ≠ 0x5c → Plain b :=
    fun b hc hq hb => ⟨UInt8.le_iff_toNat_le.mpr hc, fun h => hq (h ▸ rfl), fun h => hb (h ▸ rfl)⟩
  intro b hb
  rcases encodeChar_cases c with ⟨hlt, he⟩ | ⟨-, b', bs, he, hb', hbs⟩
  · rw [he, List.mem_singleton] at hb
    have hn : b.toNat = c.toNat := by rw [hb, toNat_ofNat_of_lt (by omega)]
    have hchar : ∀ d : Char, c ≠ d → b.toNat ≠ d.toNat := fun d hne h =>
      hne (Char.toNat_inj.mp (hn.symm.trans h))
    exact hplain b (by omega) (hchar _ hquote) (hchar _ hbackslash)
  · rw [he] at hb
    rcases List.mem_cons.mp hb with rfl | hb
    · exact hplain b (by omega) (by omega) (by omega)
    · obtain ⟨hl, -⟩ := hbs b hb
      exact hplain b (by omega) (by omega) (by omega)

theorem body_character {text : Bytes} {c : Char} (h : Character text c) (done bs : Bytes) :
    body done .plain (text ++ bs) = body ((String.utf8EncodeChar c).reverse ++ done) .plain bs := by
  have hrun : ∀ (bytes done : Bytes), (∀ b ∈ bytes, Plain b) →
      body done .plain (bytes ++ bs) = body (bytes.reverse ++ done) .plain bs := by
    intro bytes
    induction bytes with
    | nil => exact fun _ _ => rfl
    | cons b bytes ih =>
      intro done h
      obtain ⟨hb, h⟩ := List.forall_mem_cons.mp h
      rw [List.cons_append, body_plain hb, ih _ h, List.reverse_cons, List.append_assoc]
      rfl
  cases h with
  | plain hcontrol hquote hbackslash =>
    exact hrun _ _ (plain_of_encodeChar hcontrol hquote hbackslash)
  | escape h => exact body_escape h done bs

theorem body_text {text : Bytes} {cs : List Char} (h : Text text cs) (done rest : Bytes) :
    body done .plain (text ++ 0x22 :: rest) = .ok (done.reverse ++ encode cs, rest) := by
  induction h generalizing done with
  | nil => simp [body, encode]
  | @cons text texts c cs h hs ih =>
    rw [List.append_assoc, body_character h, ih]
    simp [encode]

variable {r : Bytes × Bytes}

theorem exists_unit {digits : Bytes} (hlen : digits.length = 4)
    (h : afterUnit done none digits bs = .ok r) :
    (∃ n, Hex digits n ∧ isHighSurrogate n = false ∧ isLowSurrogate n = false ∧
      body ((String.utf8EncodeChar (Char.ofNat n)).reverse ++ done) .plain bs = .ok r) ∨
      ∃ n, Hex digits n ∧ isHighSurrogate n = true ∧ body done (.pairEscape n) bs = .ok r := by
  cases hn : hexValue? digits with
  | none =>
    simp only [afterUnit, unit16, hn] at h
    cases h
  | some n =>
    cases hlow : isLowSurrogate n <;> cases hhigh : isHighSurrogate n <;>
      simp only [afterUnit, unit16, hn, hlow, hhigh, Bool.false_eq_true, if_false, if_true] at h
    · exact .inl ⟨n, ⟨hlen, hn⟩, hhigh, hlow, h⟩
    · exact .inr ⟨n, ⟨hlen, hn⟩, hhigh, h⟩
    · cases h
    · cases h

theorem exists_low {digits : Bytes} {high : Nat} (hlen : digits.length = 4)
    (h : afterUnit done (some high) digits bs = .ok r) :
    ∃ low, Hex digits low ∧ isLowSurrogate low = true ∧
      body ((String.utf8EncodeChar (Char.ofNat (joinSurrogates high low))).reverse ++ done) .plain
        bs = .ok r := by
  cases hn : hexValue? digits with
  | none =>
    simp only [afterUnit, unit16, hn] at h
    cases h
  | some low =>
    cases hlow : isLowSurrogate low <;>
      simp only [afterUnit, unit16, hn, hlow, Bool.false_eq_true, if_false, if_true] at h
    · cases h
    · exact ⟨low, ⟨hlen, hn⟩, hlow, h⟩

theorem exists_second {high : Nat} (h : body done (.pairEscape high) bs = .ok r) :
    ∃ digits rest, digits.length = 4 ∧ bs = 0x5c :: 0x75 :: (digits ++ rest) ∧
      afterUnit done (some high) digits rest = .ok r := by
  match bs, h with
  | [], h => cases h
  | [b], h =>
    rw [body] at h
    split at h <;> cases h
  | b :: c :: bs, h =>
    by_cases hb : b = 0x5c
    · by_cases hc : c = 0x75
      · subst hb hc
        have h : body done (.hex (some high) []) bs = .ok r := h
        obtain ⟨digits, rest, hlen, rfl⟩ := exists_digits h
        exact ⟨digits, rest, hlen, rfl, by rwa [body_hex hlen] at h⟩
      · rw [body, if_pos hb, body, if_neg hc] at h
        cases h
    · rw [body, if_neg hb] at h
      cases h

theorem exists_escape (h : body done .escape bs = .ok r) :
    ∃ text c rest, Escape (0x5c :: text) c ∧ bs = text ++ rest ∧
      body ((String.utf8EncodeChar c).reverse ++ done) .plain rest = .ok r := by
  cases bs with
  | nil =>
    rw [body] at h
    cases h
  | cons b bs =>
    by_cases hb : b = 0x75
    · subst hb
      have h : body done (.hex none []) bs = .ok r := h
      obtain ⟨digits, rest, hlen, rfl⟩ := exists_digits h
      rw [body_hex hlen] at h
      rcases exists_unit hlen h with ⟨n, hn, hhigh, hlow, hr⟩ | ⟨high, hn, hhigh, hr⟩
      · exact ⟨0x75 :: digits, _, rest, .unit hn hhigh hlow, rfl, hr⟩
      · obtain ⟨digits', rest, hlen', rfl, hr'⟩ := exists_second hr
        obtain ⟨low, hl, hlow, hr'⟩ := exists_low hlen' hr'
        exact ⟨_, _, rest, .pair hn hl hhigh hlow, by simp, hr'⟩
    · cases hs : shortEscape? b with
      | none =>
        simp only [body, if_neg hb, hs] at h
        cases h
      | some c =>
        simp only [body, if_neg hb, hs] at h
        exact ⟨[b], _, bs, .short hs, rfl, by rwa [encodeChar_shortEscape hs]⟩

theorem exists_piece (h : body done .plain bs = .ok r) :
    (∃ rest, bs = 0x22 :: rest ∧ r = (done.reverse, rest)) ∨
      ∃ text bytes rest, Piece text bytes ∧ bs = text ++ rest ∧
        body (bytes.reverse ++ done) .plain rest = .ok r := by
  cases bs with
  | nil =>
    rw [body] at h
    cases h
  | cons b bs =>
    by_cases hquote : b = 0x22
    · rw [body, if_pos hquote] at h
      exact .inl ⟨bs, by rw [hquote], (Except.ok.inj h).symm⟩
    · by_cases hbackslash : b = 0x5c
      · subst hbackslash
        obtain ⟨text, c, rest, hc, rfl, hr⟩ := exists_escape h
        exact .inr ⟨_, _, rest, .escape hc, rfl, hr⟩
      · by_cases hcontrol : b < 0x20
        · rw [body, if_neg hquote, if_neg hbackslash, if_pos hcontrol] at h
          cases h
        · have hb : Plain b := ⟨UInt8.not_lt.mp hcontrol, hquote, hbackslash⟩
          exact .inr ⟨[b], [b], bs, .plain hb, rfl, by rwa [body_plain hb] at h⟩

theorem Piece.text_ne_nil {text bytes : Bytes} (h : Piece text bytes) : text ≠ [] := by
  rcases h with _ | ⟨_ | _ | _⟩ <;> exact List.cons_ne_nil _ _

theorem pieces_of_body {bytes rest : Bytes} (h : body done .plain bs = .ok (bytes, rest)) :
    ∃ text more, Pieces text more ∧ bs = text ++ 0x22 :: rest ∧ bytes = done.reverse ++ more := by
  induction hn : bs.length using Nat.strongRecOn generalizing done bs with
  | _ n ih =>
    rcases exists_piece h with ⟨rest', rfl, hr⟩ | ⟨text, piece, rest', hp, rfl, hr⟩
    · obtain ⟨rfl, rfl⟩ := Prod.mk.inj hr
      exact ⟨[], [], .nil, rfl, (List.append_nil _).symm⟩
    · have hpos := List.length_pos_of_ne_nil hp.text_ne_nil
      rw [List.length_append] at hn
      obtain ⟨texts, more, hps, rfl, rfl⟩ := ih rest'.length (by omega) hr rfl
      exact ⟨text ++ texts, piece ++ more, .cons hp hps, by simp, by simp⟩

theorem continues_tail {c : Char} {b : UInt8} {bs : Bytes} (h : String.utf8EncodeChar c = b :: bs) :
    (b.toNat < 0x80 ∨ 0xc0 ≤ b.toNat) ∧ Continues bs := by
  rcases encodeChar_cases c with ⟨hlt, he⟩ | ⟨-, b', bs', he, hb, hbs⟩
  · obtain ⟨rfl, rfl⟩ := List.cons.inj (he.symm.trans h)
    exact ⟨.inl (by rwa [toNat_ofNat_of_lt (by omega)]), nofun⟩
  · obtain ⟨rfl, rfl⟩ := List.cons.inj (he.symm.trans h)
    exact ⟨.inr hb, hbs⟩

theorem Pieces.of_continues {text bytes more : Bytes} (hc : Continues bytes)
    (h : Pieces text (bytes ++ more)) : ∃ text', text = bytes ++ text' ∧ Pieces text' more := by
  induction bytes generalizing text with
  | nil => exact ⟨text, rfl, h⟩
  | cons b bytes ih =>
    obtain ⟨hb, hc⟩ := List.forall_mem_cons.mp hc
    generalize hall : b :: bytes ++ more = all at h
    cases h with
    | nil => cases hall
    | cons hp hs =>
      cases hp with
      | plain hplain =>
        obtain ⟨rfl, rfl⟩ := List.cons.inj hall
        obtain ⟨text', rfl, hs'⟩ := ih hc hs
        exact ⟨text', rfl, hs'⟩
      | @escape _ c he =>
        obtain ⟨b', bs, hbs⟩ := List.exists_cons_of_ne_nil (String.utf8EncodeChar_ne_nil (c := c))
        rw [hbs] at hall
        obtain ⟨rfl, -⟩ := List.cons.inj hall
        have hb' := (continues_tail hbs).1
        omega

theorem character_of_plain {c : Char} {b : UInt8} {bs : Bytes}
    (h : String.utf8EncodeChar c = b :: bs) (hb : Plain b) :
    Character (String.utf8EncodeChar c) c := by
  have hb0 : 0x20 ≤ b.toNat := UInt8.le_iff_toNat_le.mp hb.control
  rcases encodeChar_cases c with ⟨hlt, he⟩ | ⟨hle, -⟩
  · obtain ⟨rfl, -⟩ := List.cons.inj (he.symm.trans h)
    rw [toNat_ofNat_of_lt (by omega)] at hb0
    refine .plain hb0 ?_ ?_ <;> rintro rfl
    · exact hb.quote rfl
    · exact hb.backslash rfl
  · refine .plain (by omega) ?_ ?_ <;> rintro rfl <;> exact absurd hle (by decide)

theorem text_of_pieces {text : Bytes} {cs : List Char} (h : Pieces text (encode cs)) :
    Text text cs := by
  induction cs generalizing text with
  | nil =>
    generalize hall : encode [] = all at h
    cases h with
    | nil => exact .nil
    | cons hp hs =>
      cases hp with
      | plain => cases hall
      | escape => exact absurd (List.append_eq_nil_iff.mp hall.symm).1 String.utf8EncodeChar_ne_nil
  | cons c cs ih =>
    generalize hall : encode (c :: cs) = all at h
    have hcs : encode (c :: cs) = String.utf8EncodeChar c ++ encode cs := rfl
    cases h with
    | nil => exact absurd (List.append_eq_nil_iff.mp hall).1 String.utf8EncodeChar_ne_nil
    | @cons _ texts _ bytes hp hs =>
      cases hp with
      | @plain b hplain =>
        obtain ⟨b', bs, hbs⟩ := List.exists_cons_of_ne_nil (String.utf8EncodeChar_ne_nil (c := c))
        rw [hcs, hbs] at hall
        obtain ⟨rfl, rfl⟩ := List.cons.inj hall
        obtain ⟨texts, rfl, hs'⟩ := Pieces.of_continues (continues_tail hbs).2 hs
        have htext := Text.cons (character_of_plain hbs hplain) (ih hs')
        rwa [hbs] at htext
      | escape he =>
        obtain ⟨rfl, rfl⟩ := encodeChar_append_inj (hcs.symm.trans hall)
        exact .cons (.escape he) (ih hs)

end Characters

open Characters

theorem string_eq_ok_iff {bs rest : Bytes} {s : String} :
    string bs = .ok (s, rest) ↔ ∃ text, Text text s.toList ∧ bs = text ++ 0x22 :: rest := by
  constructor
  · intro h
    rw [string] at h
    split at h
    · cases h
    · next bytes rest' hbody =>
      split at h
      · next cs hcs =>
        obtain ⟨hs, rfl⟩ := Prod.mk.inj (Except.ok.inj h)
        obtain ⟨text, bytes, hps, rfl, rfl⟩ := pieces_of_body hbody
        obtain rfl : bytes = Utf8.encode cs := Utf8.decode?_eq_some_iff.mp hcs
        refine ⟨text, ?_, rfl⟩
        rw [← hs, String.toList_ofList]
        exact text_of_pieces hps
      · cases h
  · rintro ⟨text, h, rfl⟩
    rw [string, body_text h]
    have hdecode : Utf8.decode? ([].reverse ++ Utf8.encode s.toList) = some s.toList :=
      Utf8.decode?_encode s.toList
    simp only [hdecode, String.ofList_toList]

end BuildWatch.Json
