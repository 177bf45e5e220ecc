import SelfStudy.Fmt.Integers

/-!
# UTF-8

`utf8_decode` is branchless: it reads four code units whatever the first one is, and collects in `e`
the bits of everything that may be wrong. It is right: there is no error exactly if the encoding of a
character stands at the place, and then the character and its length are the ones decoded.
-/

namespace SelfStudy.Fmt

/-! ## The decoder -/

def utf8Masks : List ℕ := [0x00, 0x7f, 0x1f, 0x0f, 0x07]

def utf8Mins : List ℕ := [4194304, 0, 128, 2048, 65536]

def utf8Shiftc : List ℕ := [0, 18, 12, 6, 0]

def utf8Shifte : List ℕ := [0, 6, 4, 2, 0]

/-- The literal that is indexed by the upper five bits of the first code unit; the last entry is its
end. -/
def utf8Lengths : List ℕ :=
  [1, 1, 1, 1, 1, 1, 1, 1, 1, 1, 1, 1, 1, 1, 1, 1,
    0, 0, 0, 0, 0, 0, 0, 0, 2, 2, 2, 2, 3, 3, 4, 0]

/-- What `utf8_decode` gives: `*c`, `*e`, and how far the pointer returned is from `s`. -/
structure Decoded where
  c : ℕ
  e : ℕ
  next : ℕ
  deriving DecidableEq, Repr

/-- `utf8_decode` of the four code units at `s`. -/
def utf8Decode (s0 s1 s2 s3 : CodeUnit) : Decoded :=
  let len := utf8Lengths.getD (s0.toNat >>> 3) 0
  let next := len + if len = 0 then 1 else 0
  let c := ((s0.toNat &&& utf8Masks.getD len 0) <<< 18 ||| (s1.toNat &&& 0x3f) <<< 12 |||
    (s2.toNat &&& 0x3f) <<< 6 ||| (s3.toNat &&& 0x3f) <<< 0) >>> utf8Shiftc.getD len 0
  let e := (if c < utf8Mins.getD len 0 then 1 else 0) <<< 6 |||
    (if c >>> 11 = 0x1b then 1 else 0) <<< 7 ||| (if c > 0x10ffff then 1 else 0) <<< 8 |||
    (s1.toNat &&& 0xc0) >>> 2 ||| (s2.toNat &&& 0xc0) >>> 4 ||| s3.toNat >>> 6
  { c, e := (e ^^^ 0x2a) >>> utf8Shifte.getD len 0, next }

/-! ## The bits -/

/-- The code units of a decoded value do not overlap. -/
theorem or_sextets (a : ℕ) {b c d : ℕ} (hb : b < 64) (hc : c < 64) (hd : d < 64) :
    a <<< 18 ||| b <<< 12 ||| c <<< 6 ||| d <<< 0 = a * 262144 + b * 4096 + c * 64 + d := by
  have h : a <<< 18 ||| b <<< 12 ||| c <<< 6 ||| d <<< 0 =
      ((a <<< 6 ||| b) <<< 6 ||| c) <<< 6 ||| d := by
    simp only [Nat.shiftLeft_or_distrib, ← Nat.shiftLeft_add, Nat.shiftLeft_zero]
  rw [h, ← Nat.shiftLeft_add_eq_or_of_lt (i := 6) hd, ← Nat.shiftLeft_add_eq_or_of_lt (i := 6) hc,
    ← Nat.shiftLeft_add_eq_or_of_lt (i := 6) hb]
  simp only [Nat.shiftLeft_eq]
  omega

/-- The bits of a continuation. -/
theorem continuation_bits : ∀ s : CodeUnit, s.toNat &&& 0x3f = s.toNat % 64 ∧
    (s.toNat &&& 0xc0) >>> 2 = (s.toNat / 64) <<< 4 ∧
    (s.toNat &&& 0xc0) >>> 4 = (s.toNat / 64) <<< 2 ∧ s.toNat >>> 6 = s.toNat / 64 ∧
    s.toNat / 64 < 4 :=
  forall_codeUnit (by decide +kernel)

/-- The first code unit: the length, and what its mask keeps. -/
theorem first_bits : ∀ s : CodeUnit,
    utf8Lengths.getD (s.toNat >>> 3) 0 =
      (if s.toNat < 0x80 then 1 else if s.toNat < 0xc0 then 0 else if s.toNat < 0xe0 then 2
        else if s.toNat < 0xf0 then 3 else if s.toNat < 0xf8 then 4 else 0) ∧
    s.toNat &&& 0x7f = s.toNat % 0x80 ∧ s.toNat &&& 0x1f = s.toNat % 0x20 ∧
    s.toNat &&& 0x0f = s.toNat % 0x10 ∧ s.toNat &&& 0x07 = s.toNat % 0x08 :=
  forall_codeUnit (by decide +kernel)

/-- When the error bits are all as they should be; `k` is the shift for the length. -/
theorem error_bits {k : ℕ} (hk : k ∈ [0, 2, 4, 6]) (min surrogate range : Bool)
    {t1 t2 t3 : ℕ} (h1 : t1 < 4) (h2 : t2 < 4) (h3 : t3 < 4) :
    (((if min then 1 else 0) <<< 6 ||| (if surrogate then 1 else 0) <<< 7 |||
        (if range then 1 else 0) <<< 8 ||| t1 <<< 4 ||| t2 <<< 2 ||| t3) ^^^ 0x2a) >>> k = 0 ↔
      (min = false ∧ surrogate = false ∧ range = false) ∧
        ((k ≤ 4 → t1 = 2) ∧ (k ≤ 2 → t2 = 2) ∧ (k = 0 → t3 = 2)) := by
  have key : ∀ k ∈ [0, 2, 4, 6], ∀ min surrogate range : Bool, ∀ t1 t2 t3 : Fin 4,
      (((if min then 1 else 0) <<< 6 ||| (if surrogate then 1 else 0) <<< 7 |||
        (if range then 1 else 0) <<< 8 ||| t1.val <<< 4 ||| t2.val <<< 2 ||| t3.val) ^^^ 0x2a) >>>
          k = 0 ↔ (min = false ∧ surrogate = false ∧ range = false) ∧
            ((k ≤ 4 → t1.val = 2) ∧ (k ≤ 2 → t2.val = 2) ∧ (k = 0 → t3.val = 2)) := by
    decide +kernel
  exact key k hk min surrogate range ⟨t1, h1⟩ ⟨t2, h2⟩ ⟨t3, h3⟩

/-! ## Exactness -/

section Decode

variable {s0 s1 s2 s3 : CodeUnit}

/-- The decoded value as a number of sextets. -/
def sextets (lead : ℕ) (s1 s2 s3 : CodeUnit) : ℕ :=
  lead * 262144 + s1.toNat % 64 * 4096 + s2.toNat % 64 * 64 + s3.toNat % 64

/-- `utf8_decode` where the length is known. -/
theorem utf8Decode_of_length {len : ℕ} (h : utf8Lengths.getD (s0.toNat >>> 3) 0 = len)
    (hk : utf8Shifte.getD len 0 ∈ [0, 2, 4, 6]) {c : ℕ}
    (hc : c = sextets (s0.toNat &&& utf8Masks.getD len 0) s1 s2 s3 >>> utf8Shiftc.getD len 0) :
    (utf8Decode s0 s1 s2 s3).c = c ∧
      (utf8Decode s0 s1 s2 s3).next = (len + if len = 0 then 1 else 0) ∧
      ((utf8Decode s0 s1 s2 s3).e = 0 ↔
        (utf8Mins.getD len 0 ≤ c ∧ c >>> 11 ≠ 0x1b ∧ c ≤ 0x10ffff) ∧
          ((utf8Shifte.getD len 0 ≤ 4 → s1.toNat / 64 = 2) ∧
            (utf8Shifte.getD len 0 ≤ 2 → s2.toNat / 64 = 2) ∧
              (utf8Shifte.getD len 0 = 0 → s3.toNat / 64 = 2))) := by
  obtain ⟨m1, u1, -, -, l1⟩ := continuation_bits s1
  obtain ⟨m2, -, u2, -, l2⟩ := continuation_bits s2
  obtain ⟨m3, -, -, u3, l3⟩ := continuation_bits s3
  have hvalue : (utf8Decode s0 s1 s2 s3).c = c := by
    unfold utf8Decode
    dsimp only
    rw [h, m1, m2, m3, or_sextets _ (Nat.mod_lt _ (by decide)) (Nat.mod_lt _ (by decide))
      (Nat.mod_lt _ (by decide)), hc]
    rfl
  refine ⟨hvalue, by unfold utf8Decode; rw [h], ?_⟩
  have hbits := error_bits hk (decide (c < utf8Mins.getD len 0)) (decide (c >>> 11 = 0x1b))
    (decide (c > 0x10ffff)) l1 l2 l3
  simp only [decide_eq_true_eq, decide_eq_false_iff_not, not_lt] at hbits
  rw [← hbits, ← hvalue]
  unfold utf8Decode
  dsimp only
  rw [h, u1, u2, u3]

theorem ofNat_eq {x : ℕ} {s : CodeUnit} (h : x = s.toNat) : UInt8.ofNat x = s := by
  rw [h]
  exact UInt8.ofNat_toNat

theorem encode_one {c : Char} (h : c.toNat ≤ 0x7f) :
    String.utf8EncodeChar c = [UInt8.ofNat c.toNat] := if_pos h

theorem encode_two {c : Char} (h1 : ¬ c.toNat ≤ 0x7f) (h2 : c.toNat ≤ 0x7ff) :
    String.utf8EncodeChar c =
      [UInt8.ofNat (c.toNat / 64 % 0x20 + 0xc0), UInt8.ofNat (c.toNat % 0x40 + 0x80)] :=
  (if_neg h1).trans (if_pos h2)

theorem encode_three {c : Char} (h1 : ¬ c.toNat ≤ 0x7f) (h2 : ¬ c.toNat ≤ 0x7ff)
    (h3 : c.toNat ≤ 0xffff) : String.utf8EncodeChar c =
      [UInt8.ofNat (c.toNat / 4096 % 0x10 + 0xe0), UInt8.ofNat (c.toNat / 64 % 0x40 + 0x80),
        UInt8.ofNat (c.toNat % 0x40 + 0x80)] :=
  (if_neg h1).trans ((if_neg h2).trans (if_pos h3))

theorem encode_four {c : Char} (h1 : ¬ c.toNat ≤ 0x7f) (h2 : ¬ c.toNat ≤ 0x7ff)
    (h3 : ¬ c.toNat ≤ 0xffff) : String.utf8EncodeChar c =
      [UInt8.ofNat (c.toNat / 262144 % 0x08 + 0xf0), UInt8.ofNat (c.toNat / 4096 % 0x40 + 0x80),
        UInt8.ofNat (c.toNat / 64 % 0x40 + 0x80), UInt8.ofNat (c.toNat % 0x40 + 0x80)] :=
  (if_neg h1).trans ((if_neg h2).trans (if_neg h3))

/-- A value that is no surrogate and not too large is a character. -/
theorem exists_char {v : ℕ} (hs : v >>> 11 ≠ 0x1b) (hr : v ≤ 0x10ffff) :
    ∃ c : Char, c.toNat = v := by
  have hvalid : v.isValidChar := by
    rw [Nat.shiftRight_eq_div_pow] at hs
    rcases Nat.lt_or_ge v 0xd800 with h | h
    · exact .inl h
    · exact .inr ⟨by omega, by omega⟩
  exact ⟨Char.ofNatAux v hvalid, rfl⟩

/-- A code unit that begins no character is an error. -/
theorem utf8Decode_invalid (h : utf8Lengths.getD (s0.toNat >>> 3) 0 = 0) :
    (utf8Decode s0 s1 s2 s3).e ≠ 0 := by
  intro he
  obtain ⟨-, -, hiff⟩ := @utf8Decode_of_length s0 s1 s2 s3 0 h (by decide) _ rfl
  obtain ⟨⟨hmin, -, -⟩, -⟩ := hiff.mp he
  have hmin : 4194304 ≤ sextets (s0.toNat &&& 0) s1 s2 s3 >>> 0 := hmin
  rw [Nat.and_zero, Nat.shiftRight_zero, sextets] at hmin
  omega

theorem char_spec (c : Char) : c.toNat / 2 ^ 11 ≠ 0x1b ∧ c.toNat ≤ 0x10ffff := by
  have hvalid : c.toNat < 0xd800 ∨ 0xdfff < c.toNat ∧ c.toNat < 0x110000 := c.valid
  omega

theorem toNat_of_ofNat_eq {x : ℕ} {s : CodeUnit} (h : UInt8.ofNat x = s) (hx : x < 256) :
    s.toNat = x := by
  rw [← h, UInt8.toNat_ofNat']
  exact Nat.mod_eq_of_lt hx

/-- Where no error is reported, the encoding of a character stands at the place. -/
theorem exists_of_utf8Decode (h : (utf8Decode s0 s1 s2 s3).e = 0) :
    ∃ c : Char, c.toNat = (utf8Decode s0 s1 s2 s3).c ∧
      String.utf8EncodeChar c = [s0, s1, s2, s3].take (utf8Decode s0 s1 s2 s3).next := by
  obtain ⟨hlen, h7f, h1f, h0f, h07⟩ := first_bits s0
  have hlt := s0.toNat_lt
  split_ifs at hlen with r1 r2 r3 r4 r5
  · obtain ⟨hc, hn, he⟩ := @utf8Decode_of_length s0 s1 s2 s3 1 hlen (by decide) _ rfl
    obtain ⟨⟨hmin, hs, hr⟩, -⟩ := he.mp h
    obtain ⟨c, hcv⟩ := exists_char hs hr
    refine ⟨c, hcv.trans hc.symm, ?_⟩
    have hv : c.toNat = s0.toNat := by
      rw [hcv]
      show sextets (s0.toNat &&& 0x7f) s1 s2 s3 >>> 18 = _
      rw [h7f, sextets, Nat.shiftRight_eq_div_pow]
      omega
    rw [hn, encode_one (by omega), ofNat_eq hv]
    rfl
  · exact absurd h (utf8Decode_invalid hlen)
  · obtain ⟨hc, hn, he⟩ := @utf8Decode_of_length s0 s1 s2 s3 2 hlen (by decide) _ rfl
    obtain ⟨⟨hmin, hs, hr⟩, t1, -⟩ := he.mp h
    have t1 := t1 (by decide)
    obtain ⟨c, hcv⟩ := exists_char hs hr
    refine ⟨c, hcv.trans hc.symm, ?_⟩
    have hmin : 128 ≤ c.toNat := hcv ▸ hmin
    have hv : c.toNat = s0.toNat % 32 * 64 + s1.toNat % 64 := by
      rw [hcv]
      show sextets (s0.toNat &&& 0x1f) s1 s2 s3 >>> 12 = _
      rw [h1f, sextets, Nat.shiftRight_eq_div_pow]
      omega
    rw [hn, encode_two (by omega) (by omega), ofNat_eq (s := s0) (by omega),
      ofNat_eq (s := s1) (by omega)]
    rfl
  · obtain ⟨hc, hn, he⟩ := @utf8Decode_of_length s0 s1 s2 s3 3 hlen (by decide) _ rfl
    obtain ⟨⟨hmin, hs, hr⟩, t1, t2, -⟩ := he.mp h
    have t1 := t1 (by decide)
    have t2 := t2 (by decide)
    obtain ⟨c, hcv⟩ := exists_char hs hr
    refine ⟨c, hcv.trans hc.symm, ?_⟩
    have hmin : 2048 ≤ c.toNat := hcv ▸ hmin
    have hv : c.toNat = s0.toNat % 16 * 4096 + s1.toNat % 64 * 64 + s2.toNat % 64 := by
      rw [hcv]
      show sextets (s0.toNat &&& 0x0f) s1 s2 s3 >>> 6 = _
      rw [h0f, sextets, Nat.shiftRight_eq_div_pow]
      omega
    rw [hn, encode_three (by omega) (by omega) (by omega), ofNat_eq (s := s0) (by omega),
      ofNat_eq (s := s1) (by omega), ofNat_eq (s := s2) (by omega)]
    rfl
  · obtain ⟨hc, hn, he⟩ := @utf8Decode_of_length s0 s1 s2 s3 4 hlen (by decide) _ rfl
    obtain ⟨⟨hmin, hs, hr⟩, t1, t2, t3⟩ := he.mp h
    have t1 := t1 (by decide)
    have t2 := t2 (by decide)
    have t3 := t3 (by decide)
    obtain ⟨c, hcv⟩ := exists_char hs hr
    refine ⟨c, hcv.trans hc.symm, ?_⟩
    have hmin : 65536 ≤ c.toNat := hcv ▸ hmin
    have hv : c.toNat = s0.toNat % 8 * 262144 + s1.toNat % 64 * 4096 + s2.toNat % 64 * 64 +
        s3.toNat % 64 := by
      rw [hcv]
      show sextets (s0.toNat &&& 0x07) s1 s2 s3 >>> 0 = _
      rw [h07, sextets, Nat.shiftRight_zero]
    rw [hn, encode_four (by omega) (by omega) (by omega), ofNat_eq (s := s0) (by omega),
      ofNat_eq (s := s1) (by omega), ofNat_eq (s := s2) (by omega), ofNat_eq (s := s3) (by omega)]
    rfl
  · exact absurd h (utf8Decode_invalid hlen)

/-- `utf8_decode` where there is nothing wrong. -/
theorem utf8Decode_eq {len v : ℕ} (h : utf8Lengths.getD (s0.toNat >>> 3) 0 = len + 1)
    (hk : utf8Shifte.getD (len + 1) 0 ∈ [0, 2, 4, 6])
    (hv : v = sextets (s0.toNat &&& utf8Masks.getD (len + 1) 0) s1 s2 s3 >>>
      utf8Shiftc.getD (len + 1) 0)
    (hmin : utf8Mins.getD (len + 1) 0 ≤ v) (hs : v / 2 ^ 11 ≠ 0x1b) (hr : v ≤ 0x10ffff)
    (ht : (utf8Shifte.getD (len + 1) 0 ≤ 4 → s1.toNat / 64 = 2) ∧
      (utf8Shifte.getD (len + 1) 0 ≤ 2 → s2.toNat / 64 = 2) ∧
        (utf8Shifte.getD (len + 1) 0 = 0 → s3.toNat / 64 = 2)) :
    utf8Decode s0 s1 s2 s3 = ⟨v, 0, len + 1⟩ := by
  obtain ⟨hc, hn, he⟩ := utf8Decode_of_length h hk hv
  have hs : v >>> 11 ≠ 0x1b := by
    rw [Nat.shiftRight_eq_div_pow]
    exact hs
  have he := he.mpr ⟨⟨hmin, hs, hr⟩, ht⟩
  generalize utf8Decode s0 s1 s2 s3 = d at hc hn he ⊢
  cases d
  exact congr (congr (congrArg Decoded.mk hc) he) hn

/-- Where the encoding of a character stands, it is decoded. -/
theorem utf8Decode_of_encode {c : Char} (h : String.utf8EncodeChar c <+: [s0, s1, s2, s3]) :
    utf8Decode s0 s1 s2 s3 = ⟨c.toNat, 0, (String.utf8EncodeChar c).length⟩ := by
  obtain ⟨hlen, h7f, h1f, h0f, h07⟩ := first_bits s0
  obtain ⟨hs, hr⟩ := char_spec c
  obtain ⟨t, ht⟩ := h
  by_cases h1 : c.toNat ≤ 0x7f
  · rw [encode_one h1] at ht ⊢
    obtain ⟨e0, -⟩ := List.cons.inj ht
    have e0 := toNat_of_ofNat_eq e0 (by omega)
    rw [if_pos (by omega)] at hlen
    refine @utf8Decode_eq s0 s1 s2 s3 0 _ hlen (by decide) ?_ (Nat.zero_le _) hs hr
      ⟨fun h => absurd h (by decide), fun h => absurd h (by decide), fun h => absurd h (by decide)⟩
    show _ = sextets (s0.toNat &&& 0x7f) s1 s2 s3 >>> 18
    rw [h7f, sextets, Nat.shiftRight_eq_div_pow]
    omega
  by_cases h2 : c.toNat ≤ 0x7ff
  · rw [encode_two h1 h2] at ht ⊢
    obtain ⟨e0, ht⟩ := List.cons.inj ht
    obtain ⟨e1, -⟩ := List.cons.inj ht
    have e0 := toNat_of_ofNat_eq e0 (by omega)
    have e1 := toNat_of_ofNat_eq e1 (by omega)
    rw [if_neg (by omega), if_neg (by omega), if_pos (by omega)] at hlen
    refine @utf8Decode_eq s0 s1 s2 s3 1 _ hlen (by decide) ?_ (show 128 ≤ c.toNat by omega) hs hr
      ⟨fun _ => by omega, fun h => absurd h (by decide), fun h => absurd h (by decide)⟩
    show _ = sextets (s0.toNat &&& 0x1f) s1 s2 s3 >>> 12
    rw [h1f, sextets, Nat.shiftRight_eq_div_pow]
    omega
  by_cases h3 : c.toNat ≤ 0xffff
  · rw [encode_three h1 h2 h3] at ht ⊢
    obtain ⟨e0, ht⟩ := List.cons.inj ht
    obtain ⟨e1, ht⟩ := List.cons.inj ht
    obtain ⟨e2, -⟩ := List.cons.inj ht
    have e0 := toNat_of_ofNat_eq e0 (by omega)
    have e1 := toNat_of_ofNat_eq e1 (by omega)
    have e2 := toNat_of_ofNat_eq e2 (by omega)
    rw [if_neg (by omega), if_neg (by omega), if_neg (by omega), if_pos (by omega)] at hlen
    refine @utf8Decode_eq s0 s1 s2 s3 2 _ hlen (by decide) ?_ (show 2048 ≤ c.toNat by omega) hs hr
      ⟨fun _ => by omega, fun _ => by omega, fun h => absurd h (by decide)⟩
    show _ = sextets (s0.toNat &&& 0x0f) s1 s2 s3 >>> 6
    rw [h0f, sextets, Nat.shiftRight_eq_div_pow]
    omega
  · rw [encode_four h1 h2 h3] at ht ⊢
    obtain ⟨e0, ht⟩ := List.cons.inj ht
    obtain ⟨e1, ht⟩ := List.cons.inj ht
    obtain ⟨e2, ht⟩ := List.cons.inj ht
    obtain ⟨e3, -⟩ := List.cons.inj ht
    have e0 := toNat_of_ofNat_eq e0 (by omega)
    have e1 := toNat_of_ofNat_eq e1 (by omega)
    have e2 := toNat_of_ofNat_eq e2 (by omega)
    have e3 := toNat_of_ofNat_eq e3 (by omega)
    rw [if_neg (by omega), if_neg (by omega), if_neg (by omega), if_neg (by omega),
      if_pos (by omega)] at hlen
    refine @utf8Decode_eq s0 s1 s2 s3 3 _ hlen (by decide) ?_ (show 65536 ≤ c.toNat by omega) hs hr
      ⟨fun _ => by omega, fun _ => by omega, fun _ => by omega⟩
    show _ = sextets (s0.toNat &&& 0x07) s1 s2 s3 >>> 0
    rw [h07, sextets, Nat.shiftRight_zero]
    omega

end Decode

/-- **The decoder is exact.** Of four code units it reports no error exactly if the encoding of a
character stands in front, in its shortest form and no surrogate; then it gives the character and the
length of its encoding. -/
theorem utf8_decode_exact (s0 s1 s2 s3 : CodeUnit) :
    ((utf8Decode s0 s1 s2 s3).e = 0 ↔
      ∃ c : Char, String.utf8EncodeChar c <+: [s0, s1, s2, s3]) ∧
    ∀ c : Char, String.utf8EncodeChar c <+: [s0, s1, s2, s3] →
      utf8Decode s0 s1 s2 s3 = ⟨c.toNat, 0, (String.utf8EncodeChar c).length⟩ := by
  refine ⟨⟨fun h => ?_, ?_⟩, fun c => utf8Decode_of_encode⟩
  · obtain ⟨c, -, hc⟩ := exists_of_utf8Decode h
    exact ⟨c, hc ▸ List.take_prefix _ _⟩
  · rintro ⟨c, hc⟩
    rw [utf8Decode_of_encode hc]

end SelfStudy.Fmt
