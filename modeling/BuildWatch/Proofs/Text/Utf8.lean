import BuildWatch.Text.Utf8
import Mathlib.Data.List.Basic
import Mathlib.Tactic.IntervalCases

namespace BuildWatch.Utf8

theorem toNat_ofNat_of_lt {n : Nat} (h : n < 256) : (UInt8.ofNat n).toNat = n := by
  rw [UInt8.toNat_ofNat']
  exact Nat.mod_eq_of_lt h

abbrev Scalar (n : Nat) : Prop := n < 0xd800 ∨ 0xdfff < n ∧ n < 0x110000

theorem toNat_ofNat_of_scalar {n : Nat} (h : Scalar n) : (Char.ofNat n).val.toNat = n := by
  rw [Char.ofNat, dif_pos h]
  rfl

section Encoding

/-- The bytes of a character, six bits in each after the first. The bounds on the second byte leave
out what takes fewer bytes, the surrogates, and what is beyond the last character. -/
inductive Encodes : Bytes → Char → Prop
  | one {n : Nat} (hn : n < 128) : Encodes [UInt8.ofNat n] (Char.ofNat n)
  | two {m n : Nat} (hm : 2 ≤ m ∧ m < 32) (hn : n < 64) :
      Encodes [UInt8.ofNat (0xc0 + m), UInt8.ofNat (n + 128)] (Char.ofNat (m * 64 + n))
  | three {l m n : Nat} (hl : l < 16) (hm : m < 64) (hn : n < 64) (h0 : l = 0 → 32 ≤ m)
      (h13 : l = 13 → m < 32) :
      Encodes [UInt8.ofNat (0xe0 + l), UInt8.ofNat (m + 128), UInt8.ofNat (n + 128)]
        (Char.ofNat ((l * 64 + m) * 64 + n))
  | four {k l m n : Nat} (hk : k ≤ 4) (hl : l < 64) (hm : m < 64) (hn : n < 64)
      (h0 : k = 0 → 16 ≤ l) (h4 : k = 4 → l < 16) :
      Encodes [UInt8.ofNat (0xf0 + k), UInt8.ofNat (l + 128), UInt8.ofNat (m + 128),
        UInt8.ofNat (n + 128)] (Char.ofNat (((k * 64 + l) * 64 + m) * 64 + n))

variable {text : Bytes} {c : Char}

theorem Encodes.eq_encodeChar (h : Encodes text c) : text = String.utf8EncodeChar c := by
  cases h with
  | @one n hn =>
    have hv : (Char.ofNat n).val.toNat = n := toNat_ofNat_of_scalar (by omega)
    simp only [String.utf8EncodeChar, hv]
    rw [if_pos (by omega)]
  | @two m n hm hn =>
    have hv : (Char.ofNat (m * 64 + n)).val.toNat = m * 64 + n :=
      toNat_ofNat_of_scalar (by omega)
    have h1 : (m * 64 + n) / 64 % 32 + 192 = 0xc0 + m := by omega
    have h2 : (m * 64 + n) % 64 = n := by omega
    simp only [String.utf8EncodeChar, hv]
    rw [if_neg (by omega), if_pos (by omega), h1, h2]
  | @three l m n hl hm hn h0 h13 =>
    have hv : (Char.ofNat ((l * 64 + m) * 64 + n)).val.toNat = (l * 64 + m) * 64 + n :=
      toNat_ofNat_of_scalar (by omega)
    have h1 : ((l * 64 + m) * 64 + n) / 4096 % 16 + 224 = 0xe0 + l := by omega
    have h2 : ((l * 64 + m) * 64 + n) / 64 % 64 = m := by omega
    have h3 : ((l * 64 + m) * 64 + n) % 64 = n := by omega
    simp only [String.utf8EncodeChar, hv]
    rw [if_neg (by omega), if_neg (by omega), if_pos (by omega), h1, h2, h3]
  | @four k l m n hk hl hm hn h0 h4 =>
    have hv : (Char.ofNat (((k * 64 + l) * 64 + m) * 64 + n)).val.toNat =
        ((k * 64 + l) * 64 + m) * 64 + n := toNat_ofNat_of_scalar (by omega)
    have h1 : (((k * 64 + l) * 64 + m) * 64 + n) / 262144 % 8 + 240 = 0xf0 + k := by omega
    have h2 : (((k * 64 + l) * 64 + m) * 64 + n) / 4096 % 64 = l := by omega
    have h3 : (((k * 64 + l) * 64 + m) * 64 + n) / 64 % 64 = m := by omega
    have h4 : (((k * 64 + l) * 64 + m) * 64 + n) % 64 = n := by omega
    simp only [String.utf8EncodeChar, hv]
    rw [if_neg (by omega), if_neg (by omega), if_neg (by omega), h1, h2, h3, h4]

theorem encodes (c : Char) : Encodes (String.utf8EncodeChar c) c := by
  obtain ⟨text, h⟩ : ∃ text, Encodes text c := by
    have hc : Char.ofNat c.val.toNat = c := Char.ofNat_toNat c
    have hv : Scalar c.val.toNat := c.valid
    generalize c.val.toNat = n at hc hv
    subst hc
    by_cases h1 : n < 0x80
    · exact ⟨_, .one h1⟩
    by_cases h2 : n < 0x800
    · have h := Encodes.two (m := n / 64) (n := n % 64) (by omega) (by omega)
      rw [Nat.div_add_mod'] at h
      exact ⟨_, h⟩
    by_cases h3 : n < 0x10000
    · have h := Encodes.three (l := n / 64 / 64) (m := n / 64 % 64) (n := n % 64) (by omega)
        (by omega) (by omega) (by omega) (by omega)
      rw [Nat.div_add_mod', Nat.div_add_mod'] at h
      exact ⟨_, h⟩
    · have h := Encodes.four (k := n / 64 / 64 / 64) (l := n / 64 / 64 % 64) (m := n / 64 % 64)
        (n := n % 64) (by omega) (by omega) (by omega) (by omega) (by omega) (by omega)
      rw [Nat.div_add_mod', Nat.div_add_mod', Nat.div_add_mod'] at h
      exact ⟨_, h⟩
  rwa [← h.eq_encodeChar]

def Continues (bs : Bytes) : Prop := ∀ b ∈ bs, 0x80 ≤ b.toNat ∧ b.toNat < 0xc0

theorem encodeChar_cases (c : Char) :
    (c.toNat < 0x80 ∧ String.utf8EncodeChar c = [UInt8.ofNat c.toNat]) ∨
      0x80 ≤ c.toNat ∧ ∃ b bs, String.utf8EncodeChar c = b :: bs ∧ 0xc0 ≤ b.toNat ∧ Continues bs := by
  have hfirst : ∀ m, 0xc0 ≤ m → m < 256 → 0xc0 ≤ (UInt8.ofNat m).toNat := by
    intro m hle hlt
    rwa [toNat_ofNat_of_lt hlt]
  have hnil : Continues [] := nofun
  have hnext : ∀ {n bs}, n < 64 → Continues bs → Continues (UInt8.ofNat (n + 128) :: bs) := by
    intro n bs hn hbs
    refine List.forall_mem_cons.mpr ⟨?_, hbs⟩
    rw [toNat_ofNat_of_lt (by omega)]
    omega
  have hvalue : ∀ {n}, Scalar n → (Char.ofNat n).toNat = n := toNat_ofNat_of_scalar
  have h := encodes c
  generalize String.utf8EncodeChar c = text at h ⊢
  cases h with
  | one hn =>
    rw [hvalue (by omega)]
    exact .inl ⟨hn, rfl⟩
  | two hm hn =>
    rw [hvalue (by omega)]
    exact .inr ⟨by omega, _, _, rfl, hfirst _ (by omega) (by omega), hnext hn hnil⟩
  | three hl hm hn h0 h13 =>
    rw [hvalue (by omega)]
    exact .inr ⟨by omega, _, _, rfl, hfirst _ (by omega) (by omega), hnext hm (hnext hn hnil)⟩
  | four hk hl hm hn h0 h4 =>
    rw [hvalue (by omega)]
    exact .inr ⟨by omega, _, _, rfl, hfirst _ (by omega) (by omega),
      hnext hl (hnext hm (hnext hn hnil))⟩

end Encoding

section Leads

theorem lead_one {n : Nat} (hn : n < 128) : lead (UInt8.ofNat n) = .single (Char.ofNat n) := by
  rw [lead, toNat_ofNat_of_lt (by omega)]
  exact if_pos hn

theorem lead_two {m : Nat} (hm : 2 ≤ m ∧ m < 32) :
    lead (UInt8.ofNat (0xc0 + m)) = .opens ⟨1, 0x80, 0xbf, m⟩ := by
  obtain ⟨hle, hlt⟩ := hm
  interval_cases m <;> rfl

theorem lead_three {l : Nat} (hl : l < 16) :
    lead (UInt8.ofNat (0xe0 + l)) =
      .opens ⟨2, if l = 0 then 0xa0 else 0x80, if l = 13 then 0x9f else 0xbf, l⟩ := by
  interval_cases l <;> rfl

theorem lead_four {k : Nat} (hk : k ≤ 4) :
    lead (UInt8.ofNat (0xf0 + k)) =
      .opens ⟨3, if k = 0 then 0x90 else 0x80, if k = 4 then 0x8f else 0xbf, k⟩ := by
  interval_cases k <;> rfl

theorem second_of_three {l m : Nat} :
    ((if l = 0 then 0xa0 else 0x80 : UInt8).toNat ≤ m + 128 ∧
        m + 128 ≤ (if l = 13 then 0x9f else 0xbf : UInt8).toNat) ↔
      m < 64 ∧ (l = 0 → 32 ≤ m) ∧ (l = 13 → m < 32) := by
  by_cases h0 : l = 0 <;> by_cases h13 : l = 13 <;> simp [h0, h13] <;> omega

theorem second_of_four {k l : Nat} :
    ((if k = 0 then 0x90 else 0x80 : UInt8).toNat ≤ l + 128 ∧
        l + 128 ≤ (if k = 4 then 0x8f else 0xbf : UInt8).toNat) ↔
      l < 64 ∧ (k = 0 → 16 ≤ l) ∧ (k = 4 → l < 16) := by
  by_cases h0 : k = 0 <;> by_cases h4 : k = 4 <;> simp [h0, h4] <;> omega

theorem lead_cases (b : UInt8) :
    (∃ n, n < 128 ∧ b = UInt8.ofNat n) ∨ (∃ m, (2 ≤ m ∧ m < 32) ∧ b = UInt8.ofNat (0xc0 + m)) ∨
      (∃ l, l < 16 ∧ b = UInt8.ofNat (0xe0 + l)) ∨ (∃ k, k ≤ 4 ∧ b = UInt8.ofNat (0xf0 + k)) ∨
      lead b = .bad := by
  have hsub : ∀ m, m ≤ b.toNat → b = UInt8.ofNat (m + (b.toNat - m)) := by
    intro m hm
    rw [Nat.add_sub_cancel' hm, UInt8.ofNat_toNat]
  by_cases h1 : b.toNat < 0x80
  · exact .inl ⟨b.toNat, h1, UInt8.ofNat_toNat.symm⟩
  by_cases h2 : b.toNat < 0xc2
  · exact .inr (.inr (.inr (.inr (by rw [lead, if_neg h1, if_pos h2]))))
  by_cases h3 : b.toNat < 0xe0
  · exact .inr (.inl ⟨b.toNat - 0xc0, by omega, hsub 0xc0 (by omega)⟩)
  by_cases h4 : b.toNat < 0xf0
  · exact .inr (.inr (.inl ⟨b.toNat - 0xe0, by omega, hsub 0xe0 (by omega)⟩))
  by_cases h5 : b.toNat ≤ 0xf4
  · exact .inr (.inr (.inr (.inl ⟨b.toNat - 0xf0, by omega, hsub 0xf0 (by omega)⟩)))
  · refine .inr (.inr (.inr (.inr ?_)))
    simp only [lead]
    repeat rw [if_neg (by omega)]

end Leads

variable {done : List (Option Char)} {bs : Bytes}

theorem scan_inside {low high : UInt8} {n : Nat} (hl : low.toNat ≤ n + 128)
    (hh : n + 128 ≤ high.toNat) (k bits : Nat) (done : List (Option Char)) (bs : Bytes) :
    scan done (some ⟨k, low, high, bits⟩) (UInt8.ofNat (n + 128) :: bs) =
      if k = 1 then scan (some (Char.ofNat (bits * 64 + n)) :: done) none bs
      else scan done (some ⟨k - 1, 0x80, 0xbf, bits * 64 + n⟩) bs := by
  have hn : (UInt8.ofNat (n + 128)).toNat = n + 128 :=
    toNat_ofNat_of_lt (Nat.lt_of_le_of_lt hh high.toNat_lt)
  have hin : low ≤ UInt8.ofNat (n + 128) ∧ UInt8.ofNat (n + 128) ≤ high := by
    rw [UInt8.le_iff_toNat_le, UInt8.le_iff_toNat_le, hn]
    exact ⟨hl, hh⟩
  rw [scan, if_pos hin, hn, Nat.add_sub_cancel]

theorem scan_further {n : Nat} (hn : n < 64) (k bits : Nat) (done : List (Option Char))
    (bs : Bytes) :
    scan done (some ⟨k, 0x80, 0xbf, bits⟩) (UInt8.ofNat (n + 128) :: bs) =
      if k = 1 then scan (some (Char.ofNat (bits * 64 + n)) :: done) none bs
      else scan done (some ⟨k - 1, 0x80, 0xbf, bits * 64 + n⟩) bs :=
  scan_inside (Nat.le_add_left 128 n) (Nat.add_le_add_right (Nat.le_of_lt_succ hn) 128) k bits done bs

theorem Encodes.scan {text : Bytes} {c : Char} (h : Encodes text c) (done : List (Option Char))
    (bs : Bytes) : scan done none (text ++ bs) = scan (some c :: done) none bs := by
  cases h with
  | one hn => simp only [List.cons_append, List.nil_append, Utf8.scan, lead_one hn]
  | two hm hn =>
    simp only [List.cons_append, List.nil_append]
    rw [Utf8.scan, lead_two hm]
    exact scan_further hn 1 _ done bs
  | three hl hm hn h0 h13 =>
    obtain ⟨hlow, hhigh⟩ := second_of_three.mpr ⟨hm, h0, h13⟩
    simp only [List.cons_append, List.nil_append]
    rw [Utf8.scan, lead_three hl]
    dsimp only
    rw [scan_inside hlow hhigh, if_neg (by decide), scan_further hn, if_pos rfl]
  | four hk hl hm hn h0 h4 =>
    obtain ⟨hlow, hhigh⟩ := second_of_four.mpr ⟨hl, h0, h4⟩
    simp only [List.cons_append, List.nil_append]
    rw [Utf8.scan, lead_four hk]
    dsimp only
    rw [scan_inside hlow hhigh, if_neg (by decide), scan_further hm, if_neg (by decide),
      scan_further hn, if_pos rfl]

theorem scan_encodeChar (c : Char) (done : List (Option Char)) (bs : Bytes) :
    scan done none (String.utf8EncodeChar c ++ bs) = scan (some c :: done) none bs :=
  (encodes c).scan done bs

theorem scan_encode (cs : List Char) (done : List (Option Char)) :
    scan done none (encode cs) = (cs.map some).reverse ++ done := by
  induction cs generalizing done with
  | nil => rfl
  | cons c cs ih =>
    change scan done none (String.utf8EncodeChar c ++ encode cs) = _
    rw [scan_encodeChar, ih, List.map_cons, List.reverse_cons, List.append_assoc]
    rfl

theorem suffix_scan (done : List (Option Char)) (st : Option Opened) (bs : Bytes) :
    done <:+ scan done st bs := by
  have hcons : ∀ (p : Option Char) (l l' : List (Option Char)), p :: l <:+ l' → l <:+ l' :=
    fun p l l' h => (List.suffix_cons p l).trans h
  fun_induction scan done st bs <;> grind

theorem mem_scan {p : Option Char} {done : List (Option Char)} (h : p ∈ done)
    (st : Option Opened) (bs : Bytes) : p ∈ scan done st bs :=
  (suffix_scan done st bs).subset h

theorem encodeChar_append_inj {c d : Char} {bs bs' : Bytes}
    (h : String.utf8EncodeChar c ++ bs = String.utf8EncodeChar d ++ bs') : c = d ∧ bs = bs' := by
  have hscan := congrArg (scan [] none) h
  rw [scan_encodeChar, scan_encodeChar] at hscan
  have hc := suffix_scan [some c] none bs
  have hd := suffix_scan [some d] none bs'
  rw [hscan] at hc
  have heq := (List.suffix_of_suffix_length_le hc hd (Nat.le_refl 1)).eq_of_length rfl
  obtain rfl : c = d := by simpa using heq
  exact ⟨rfl, List.append_cancel_left h⟩

theorem exists_inside {k bits : Nat} {low high : UInt8}
    (h : none ∉ scan done (some ⟨k, low, high, bits⟩) bs) (hlow : 0x80 ≤ low.toNat) :
    ∃ n rest, bs = UInt8.ofNat (n + 128) :: rest ∧ low.toNat ≤ n + 128 ∧ n + 128 ≤ high.toNat ∧
      none ∉ if k = 1 then scan (some (Char.ofNat (bits * 64 + n)) :: done) none rest
        else scan done (some ⟨k - 1, 0x80, 0xbf, bits * 64 + n⟩) rest := by
  cases bs with
  | nil => exact absurd List.mem_cons_self h
  | cons b rest =>
    by_cases hin : low ≤ b ∧ b ≤ high
    · obtain ⟨hl, hh⟩ := hin
      rw [UInt8.le_iff_toNat_le] at hl hh
      obtain ⟨n, hn⟩ : ∃ n, b.toNat = n + 128 := ⟨b.toNat - 128, by omega⟩
      obtain rfl : UInt8.ofNat (n + 128) = b := by rw [← hn, UInt8.ofNat_toNat]
      rw [hn] at hl hh
      rw [scan_inside hl hh] at h
      exact ⟨n, rest, rfl, hl, hh, h⟩
    · rw [scan, if_neg hin] at h
      split at h <;> exact absurd (mem_scan (by simp) _ _) h

theorem exists_further {k bits : Nat} (h : none ∉ scan done (some ⟨k, 0x80, 0xbf, bits⟩) bs) :
    ∃ n rest, bs = UInt8.ofNat (n + 128) :: rest ∧ n < 64 ∧
      none ∉ if k = 1 then scan (some (Char.ofNat (bits * 64 + n)) :: done) none rest
        else scan done (some ⟨k - 1, 0x80, 0xbf, bits * 64 + n⟩) rest := by
  obtain ⟨n, rest, he, -, hh, h⟩ := exists_inside h (Nat.le_refl 0x80)
  exact ⟨n, rest, he, Nat.lt_of_add_lt_add_right (Nat.lt_succ_of_le hh), h⟩

theorem exists_char {b : UInt8} (h : none ∉ scan done none (b :: bs)) :
    ∃ text c rest, Encodes text c ∧ b :: bs = text ++ rest := by
  rcases lead_cases b with ⟨n, hn, rfl⟩ | ⟨m, hm, rfl⟩ | ⟨l, hl, rfl⟩ | ⟨k, hk, rfl⟩ | hbad
  · exact ⟨_, _, bs, .one hn, rfl⟩
  · rw [scan, lead_two hm] at h
    obtain ⟨n, rest, rfl, hn, -⟩ := exists_further h
    exact ⟨_, _, rest, .two hm hn, rfl⟩
  · rw [scan, lead_three hl] at h
    obtain ⟨m, rest, rfl, hlow, hhigh, h⟩ := exists_inside h (by split <;> decide)
    obtain ⟨n, rest, rfl, hn, -⟩ := exists_further h
    obtain ⟨hm, h0, h13⟩ := second_of_three.mp ⟨hlow, hhigh⟩
    exact ⟨_, _, rest, .three hl hm hn h0 h13, rfl⟩
  · rw [scan, lead_four hk] at h
    obtain ⟨l, rest, rfl, hlow, hhigh, h⟩ := exists_inside h (by split <;> decide)
    obtain ⟨m, rest, rfl, hm, h⟩ := exists_further h
    obtain ⟨n, rest, rfl, hn, -⟩ := exists_further h
    obtain ⟨hl, h0, h4⟩ := second_of_four.mp ⟨hlow, hhigh⟩
    exact ⟨_, _, rest, .four hk hl hm hn h0 h4, rfl⟩
  · rw [scan, hbad] at h
    exact absurd (mem_scan List.mem_cons_self _ _) h

theorem exists_encode (h : none ∉ scan done none bs) : ∃ cs, bs = encode cs := by
  induction hn : bs.length using Nat.strongRecOn generalizing done bs with
  | _ n ih =>
    cases bs with
    | nil => exact ⟨[], rfl⟩
    | cons b bs =>
      obtain ⟨text, c, rest, hc, he⟩ := exists_char h
      rw [he, hc.scan] at h
      have hlt : rest.length < n := by
        have hne := List.length_pos_of_ne_nil (String.utf8EncodeChar_ne_nil (c := c))
        have hlen := congrArg List.length he
        rw [List.length_append, hc.eq_encodeChar] at hlen
        omega
      obtain ⟨cs, rfl⟩ := ih rest.length hlt h rfl
      exact ⟨c :: cs, by rw [he, hc.eq_encodeChar]; rfl⟩

theorem pieces_encode (cs : List Char) : pieces (encode cs) = cs.map some := by
  rw [pieces, scan_encode, List.append_nil, List.reverse_reverse]

theorem decode?_encode (cs : List Char) : decode? (encode cs) = some cs := by
  simp [decode?, pieces_encode]

theorem decodeLossy_encode (cs : List Char) : decodeLossy (encode cs) = cs := by
  simp [decodeLossy, pieces_encode]

theorem decode?_eq_some_iff {bs : Bytes} {cs : List Char} :
    decode? bs = some cs ↔ bs = encode cs := by
  constructor
  · intro h
    have hall : none ∉ scan [] none bs := by
      intro hm
      have : ¬ (pieces bs).all Option.isSome := by
        simp only [List.all_eq_true, not_forall]
        exact ⟨none, List.mem_reverse.mpr hm, by simp⟩
      simp [decode?, this] at h
    obtain ⟨ds, rfl⟩ := exists_encode hall
    rw [decode?_encode, Option.some.injEq] at h
    rw [h]
  · rintro rfl
    exact decode?_encode cs

theorem encode_injective {s t : List Char} (h : encode s = encode t) : s = t := by
  have hdecode := congrArg decode? h
  rw [decode?_encode, decode?_encode] at hdecode
  exact Option.some.inj hdecode

theorem encodeChar_ne_inside {c d : Char} {x b : UInt8} {front rest bs : Bytes}
    (hc : String.utf8EncodeChar c = x :: front ++ b :: rest) :
    String.utf8EncodeChar d ≠ b :: bs := by
  intro hd
  have hinside : 0x80 ≤ b.toNat ∧ b.toNat < 0xc0 := by
    rcases encodeChar_cases c with ⟨-, hone⟩ | ⟨-, b', bs', hmore, -, hcont⟩
    · rw [hone] at hc
      simp at hc
    · rw [hmore] at hc
      apply hcont
      rw [(List.cons.inj hc).2]
      simp
  rcases encodeChar_cases d with ⟨hlt, hone⟩ | ⟨-, b', bs', hmore, hge, -⟩
  · have hb := (List.cons.inj (hd.symm.trans hone)).1
    rw [hb, toNat_ofNat_of_lt (by omega)] at hinside
    omega
  · have hb := (List.cons.inj (hd.symm.trans hmore)).1
    rw [← hb] at hge
    omega

/-- A text is found at the end of another one byte by byte only where it is its end. -/
theorem encode_suffix_iff {s t : List Char} : encode t <:+ encode s ↔ t <:+ s := by
  constructor
  · intro ⟨front, h⟩
    induction s generalizing front with
    | nil =>
      have ht : encode t = encode [] := (List.append_eq_nil_iff.mp h).2
      exact encode_injective ht ▸ List.suffix_refl []
    | cons c s ih =>
      have hc : encode (c :: s) = String.utf8EncodeChar c ++ encode s := rfl
      rw [hc] at h
      rcases List.append_eq_append_iff.mp h with ⟨rest, hchar, ht⟩ | ⟨front', -, hs⟩
      · -- the end begins inside of the first character, which it can only do at one of its ends
        rcases front with _ | ⟨x, front⟩
        · rw [List.nil_append] at hchar
          rw [← hchar, ← hc] at ht
          exact encode_injective ht ▸ List.suffix_refl _
        · rcases rest with _ | ⟨b, rest⟩
          · exact encode_injective ht ▸ List.suffix_cons c s
          · rcases t with _ | ⟨d, t⟩
            · cases ht
            · have hd : encode (d :: t) = String.utf8EncodeChar d ++ encode t := rfl
              obtain ⟨b', bs, hd'⟩ := List.exists_cons_of_ne_nil (String.utf8EncodeChar_ne_nil (c := d))
              rw [hd, hd'] at ht
              rw [← (List.cons.inj ht).1] at hchar
              exact absurd hd' (encodeChar_ne_inside hchar)
      · exact (ih front' hs.symm).trans (List.suffix_cons c s)
  · rintro ⟨front, rfl⟩
    exact ⟨encode front, List.flatMap_append.symm⟩

end BuildWatch.Utf8
