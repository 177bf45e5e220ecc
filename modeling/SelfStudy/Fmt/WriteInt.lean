import SelfStudy.Fmt.Padding

/-!
# Integers with specifiers

`write_int` with its prefix packed into an `unsigned`, its numeric padding and `write_padded` around
it, and the shorter `write` of an integer without specifiers. What is written is a sign, the prefix
of the base, zeros and the digits, between two fills; and it is as long as what was reserved for it.
-/

namespace SelfStudy.Fmt

open Lib

/-! ## Integers -/

/-- The integer types of the arguments. -/
inductive IntType
  | int
  | uint
  | long_long
  | ulong_long
  | int128
  | uint128
  deriving DecidableEq, Repr

def IntType.bits : IntType → ℕ
  | .int | .uint => 32
  | .long_long | .ulong_long => 64
  | .int128 | .uint128 => 128

def IntType.signed : IntType → Bool
  | .int | .long_long | .int128 => true
  | .uint | .ulong_long | .uint128 => false

/-- The value that a bit pattern of the type stands for. -/
def IntType.toInt (t : IntType) (value : BitVec t.bits) : ℤ :=
  if t.signed then value.toInt else value.toNat

/-- `is_negative`. -/
def isNegative (t : IntType) (value : BitVec t.bits) : Bool := t.signed && value.toInt < 0

/-- `count_digits` of an unsigned type. -/
def countDigits (bits n : ℕ) : ℕ :=
  if bits = 32 then doCountDigits32 n
  else if bits = 64 then doCountDigits64 n
  else countDigitsFallback n

/-- `count_digits<BITS>` of an unsigned type. -/
def countDigitsRadix (base_bits bits n : ℕ) : ℕ :=
  if bits = 32 then countDigitsBits32 base_bits n else countDigitsBits base_bits n

/-- `write_int_arg`; a prefix has its characters in the three lower bytes and their number in the
fourth one. -/
structure WriteIntArg (w : ℕ) where
  abs_value : BitVec w
  pref : UInt32
  deriving DecidableEq, Repr

/-- `prefixes[sign]`. -/
def signPrefix : Sign → UInt32
  | .none | .minus => 0
  | .plus => 0x1000000 ||| 43
  | .space => 0x1000000 ||| 32

/-- `make_write_int_arg`. -/
def makeWriteIntArg (t : IntType) (value : BitVec t.bits) (sign : Sign) : WriteIntArg t.bits :=
  if isNegative t value then ⟨0 - value, 0x01000000 ||| 45⟩ else ⟨value, signPrefix sign⟩

/-- `prefix_append`. -/
def prefixAppend (pref value : UInt32) : UInt32 :=
  (pref ||| (if pref ≠ 0 then value <<< 8 else value)) +
    ((1 + (if value > 0xff then 1 else 0) : UInt32) <<< 24)

/-- `unsigned(upper ? u : l) << 8 | '0'`. -/
def basePrefix (upper : Bool) (u l : UInt32) : UInt32 := (if upper then u else l) <<< 8 ||| 48

/-- `for (unsigned p = prefix & 0xffffff; p != 0; p >>= 8) *it++ = p & 0xff`. -/
def prefixText (pref : UInt32) : List CodeUnit :=
  let p := pref &&& 0xffffff
  ([p, p >>> 8, p >>> 16].takeWhile (· ≠ 0)).map fun p => (p &&& 0xff).toUInt8

/-- The number of characters of a prefix. -/
def prefixSize (pref : UInt32) : ℕ := (pref >>> 24).toNat

/-- `write_int_data`. -/
structure WriteIntData where
  size : ℕ
  padding : ℕ
  deriving DecidableEq, Repr

def writeIntData (num_digits : ℕ) (pref : UInt32) (specs : FormatSpecs) : WriteIntData :=
  let size := prefixSize pref + num_digits
  if specs.align = .numeric then
    let width := specs.width.toNat
    if width > size then ⟨width, width - size⟩ else ⟨size, 0⟩
  else if specs.precision > num_digits then
    ⟨prefixSize pref + specs.precision.toNat, specs.precision.toNat - num_digits⟩
  else ⟨size, 0⟩

/-- `write_int` of the digits that `write_digits` writes. -/
def writeDigits (num_digits : ℕ) (pref : UInt32) (specs : FormatSpecs) (digits : List CodeUnit) :
    Written :=
  if specs.width = 0 ∧ specs.precision + 1 = 0 then
    ⟨num_digits + prefixSize pref, prefixText pref ++ digits⟩
  else
    let data := writeIntData num_digits pref specs
    writePadded .right specs data.size data.size
      (prefixText pref ++ List.replicate data.padding ('0' : CodeUnit) ++ digits)

/-- The digits that `format_decimal` writes into `num_digits` places. -/
def decimalDigits (value num_digits : ℕ) : List CodeUnit :=
  (formatDecimal (List.replicate num_digits 0) value num_digits).1

/-- The digits that `format_uint` writes into `num_digits` places. -/
def radixDigits (base_bits value num_digits : ℕ) (upper : Bool) : List CodeUnit :=
  (formatUint base_bits (List.replicate num_digits 0) value num_digits upper).1

/-- `write_int` of an argument. As a character it is the low byte, through `write_char`. -/
def writeIntArg {w : ℕ} (arg : WriteIntArg w) (specs : FormatSpecs) : Written :=
  let abs_value := arg.abs_value.toNat
  match specs.type with
  | .hex =>
    let pref := if specs.alt then
        prefixAppend arg.pref (basePrefix specs.upper 88 120) else arg.pref
    let num_digits := countDigitsRadix 4 w abs_value
    writeDigits num_digits pref specs (radixDigits 4 abs_value num_digits specs.upper)
  | .oct =>
    let num_digits := countDigitsRadix 3 w abs_value
    -- the prefix counts as a digit
    let pref := if specs.alt ∧ specs.precision ≤ num_digits ∧ abs_value ≠ 0 then
        prefixAppend arg.pref 48 else arg.pref
    writeDigits num_digits pref specs (radixDigits 3 abs_value num_digits false)
  | .bin =>
    let pref := if specs.alt then
        prefixAppend arg.pref (basePrefix specs.upper 66 98) else arg.pref
    let num_digits := countDigitsRadix 1 w abs_value
    writeDigits num_digits pref specs (radixDigits 1 abs_value num_digits false)
  | .chr => writePadded .left specs 1 1 [UInt8.ofNat abs_value]
  | _ =>
    let num_digits := countDigits w abs_value
    writeDigits num_digits arg.pref specs (decimalDigits abs_value num_digits)

/-- `write` of an integer with specifiers that are not localized. -/
def writeInt (t : IntType) (value : BitVec t.bits) (specs : FormatSpecs) : Written :=
  writeIntArg (makeWriteIntArg t value specs.sign) specs

/-- `write` of an integer without specifiers. -/
def writeIntDefault (t : IntType) (value : BitVec t.bits) : Written :=
  let negative := isNegative t value
  let abs_value := (if negative then ~~~value + 1 else value).toNat
  let num_digits := countDigits t.bits abs_value
  { reserved := (if negative then 1 else 0) + num_digits
    text := (if negative then [('-' : CodeUnit)] else []) ++ decimalDigits abs_value num_digits }

/-! ## What is written -/

/-- What stands in front of a value that is not negative. -/
def signChars : Sign → List CodeUnit
  | .none | .minus => []
  | .plus => ['+']
  | .space => [' ']

/-- The sign of a value. -/
def signText (value : ℤ) (sign : Sign) : List CodeUnit :=
  if value < 0 then ['-'] else signChars sign

/-- The digits of a number. -/
def digitsText (specs : FormatSpecs) (n : ℕ) : List CodeUnit :=
  match specs.type with
  | .hex => radixText 4 specs.upper n
  | .oct => radixText 3 false n
  | .bin => radixText 1 false n
  | _ => decimal n

/-- The prefix of the alternate form; the one of an octal number counts as a digit, and there is none
where the precision asks for a zero anyway. -/
def baseText (specs : FormatSpecs) (n : ℕ) : List CodeUnit :=
  if specs.alt then
    match specs.type with
    | .hex => ['0', if specs.upper then 'X' else 'x']
    | .oct =>
      if specs.precision ≤ (digitsText specs n).length ∧ n ≠ 0 then ['0'] else []
    | .bin => ['0', if specs.upper then 'B' else 'b']
    | _ => []
  else []

/-- The zeros in front of the digits. -/
def zeros (specs : FormatSpecs) (lead digits : ℕ) : ℕ :=
  if specs.align = .numeric then specs.width.toNat - (lead + digits)
  else specs.precision.toNat - digits

/-- An integer between its fills. -/
def intText (value : ℤ) (specs : FormatSpecs) : List CodeUnit :=
  let lead := signText value specs.sign ++ baseText specs value.natAbs
  let digits := digitsText specs value.natAbs
  lead ++ List.replicate (zeros specs lead.length digits.length) ('0' : CodeUnit) ++ digits

variable {specs : FormatSpecs}

/-! ### Digits -/

theorem countDigits_eq {bits n : ℕ} (hn : n < 2 ^ bits) :
    countDigits bits n = (decimal n).length := by
  rw [length_decimal]
  unfold countDigits
  split_ifs with h h
  · exact doCountDigits32_eq (h ▸ hn)
  · exact doCountDigits64_eq (h ▸ hn)
  · exact countDigitsFallback_eq n

theorem countDigitsRadix_eq {base_bits bits n : ℕ} (hb : 0 < base_bits) (hn : n < 2 ^ bits)
    (upper : Bool) : countDigitsRadix base_bits bits n = (radixText base_bits upper n).length := by
  rw [length_radixText hb]
  unfold countDigitsRadix
  split_ifs with h
  · exact countDigitsBits32_eq hb (h ▸ hn)
  · exact countDigitsBitsLoop_eq hb n 0

theorem decimalDigits_eq (n : ℕ) : decimalDigits n (decimal n).length = decimal n := by
  have h := @formatDecimalLoop_eq n (List.replicate (decimal n).length 0) []
    (by rw [List.length_replicate])
  rw [List.append_nil, List.append_nil, List.length_replicate, Nat.sub_self, List.take_zero] at h
  unfold decimalDigits formatDecimal
  rw [h]
  rfl

theorem radixDigits_eq {base_bits : ℕ} (hb : 0 < base_bits) (n : ℕ) (upper : Bool) :
    radixDigits base_bits n (radixText base_bits upper n).length upper =
      radixText base_bits upper n := by
  have h := @formatUintLoop_eq base_bits hb upper n
    (List.replicate (radixText base_bits upper n).length 0) [] (by rw [List.length_replicate])
  rw [List.append_nil, List.append_nil, List.length_replicate, Nat.sub_self, List.take_zero] at h
  unfold radixDigits formatUint
  exact h

/-! ### Prefixes -/

/-- A packed prefix and its characters. -/
def IsPrefix (pref : UInt32) (text : List CodeUnit) : Prop :=
  prefixText pref = text ∧ prefixSize pref = text.length

/-- The packed signs. -/
def signPrefixes : List UInt32 := [0, 0x01000000 ||| 45, 0x1000000 ||| 43, 0x1000000 ||| 32]

theorem minus_spec : IsPrefix (0x01000000 ||| 45) ['-'] ∧ 0x01000000 ||| 45 ∈ signPrefixes := by
  unfold IsPrefix
  decide

theorem signPrefix_spec (sign : Sign) :
    IsPrefix (signPrefix sign) (signChars sign) ∧ signPrefix sign ∈ signPrefixes := by
  unfold IsPrefix
  cases sign <;> decide

/-- The absolute value is right even for the least value of a type, and the sign is packed. -/
theorem makeWriteIntArg_spec (t : IntType) (value : BitVec t.bits) (sign : Sign) :
    (makeWriteIntArg t value sign).abs_value.toNat = (t.toInt value).natAbs ∧
      IsPrefix (makeWriteIntArg t value sign).pref (signText (t.toInt value) sign) ∧
        (makeWriteIntArg t value sign).pref ∈ signPrefixes := by
  have hlt := value.isLt
  have hcond := BitVec.toInt_eq_toNat_cond value
  unfold makeWriteIntArg signText
  by_cases hneg : isNegative t value = true
  · obtain ⟨hsigned, hvalue⟩ := Bool.and_eq_true_iff.mp hneg
    have hvalue : value.toInt < 0 := of_decide_eq_true hvalue
    have hint : t.toInt value = value.toInt := if_pos hsigned
    rw [if_pos hneg, hint, if_pos hvalue]
    refine ⟨?_, minus_spec⟩
    show (0#t.bits - value).toNat = _
    rw [BitVec.zero_sub, BitVec.toNat_neg]
    split_ifs at hcond
    · omega
    · rw [Nat.mod_eq_of_lt (by omega)]
      omega
  · have hnonneg : ¬ t.toInt value < 0 := by
      unfold IntType.toInt
      split_ifs with hsigned
      · intro h
        exact hneg (Bool.and_eq_true_iff.mpr ⟨hsigned, decide_eq_true h⟩)
      · omega
    have habs : value.toNat = (t.toInt value).natAbs := by
      unfold IntType.toInt at hnonneg ⊢
      split_ifs at hnonneg hcond ⊢ <;> omega
    rw [if_neg hneg, if_neg hnonneg]
    exact ⟨habs, signPrefix_spec sign⟩

/-- The prefix of a base goes behind the sign. -/
theorem prefixAppend_spec : ∀ pref ∈ signPrefixes,
    IsPrefix (prefixAppend pref 48) (prefixText pref ++ [('0' : CodeUnit)]) ∧ ∀ upper,
      IsPrefix (prefixAppend pref (basePrefix upper 88 120))
        (prefixText pref ++ [('0' : CodeUnit), if upper then 'X' else 'x']) ∧
      IsPrefix (prefixAppend pref (basePrefix upper 66 98))
        (prefixText pref ++ [('0' : CodeUnit), if upper then 'B' else 'b']) := by
  unfold IsPrefix signPrefixes
  intro pref hpref
  simp only [List.mem_cons, List.not_mem_nil, or_false] at hpref
  obtain rfl | rfl | rfl | rfl := hpref <;> decide +kernel

/-- The part of `write_int` that all bases share. -/
theorem writeDigits_eq {pref : UInt32} {lead digits : List CodeUnit} (hp : IsPrefix pref lead)
    (h0 : 0 ≤ specs.width) (hw : specs.width ≤ intMax) (num_digits : ℕ)
    (hn : num_digits = digits.length) (core : List CodeUnit)
    (hcore : core =
      lead ++ List.replicate (zeros specs lead.length digits.length) ('0' : CodeUnit) ++ digits) :
    writeDigits num_digits pref specs digits =
      ⟨(paddedText .right specs core.length core).length,
        paddedText .right specs core.length core⟩ := by
  obtain ⟨htext, hsize⟩ := hp
  have hlen : core.length =
      lead.length + zeros specs lead.length digits.length + digits.length := by
    rw [hcore, List.length_append, List.length_append, List.length_replicate]
  unfold writeDigits
  by_cases hplain : specs.width = 0 ∧ specs.precision + 1 = 0
  · have hz : zeros specs lead.length digits.length = 0 := by
      unfold zeros
      split_ifs <;> omega
    have hpadding : specs.width.toNat - core.length = 0 := by omega
    have hpadded : paddedText .right specs core.length core = core := by
      unfold paddedText
      dsimp only
      rw [hpadding, Nat.eq_zero_of_le_zero (leftPadding_le .right specs.align 0)]
      exact (List.append_nil _).trans (List.nil_append _)
    rw [if_pos hplain, hpadded, htext, hsize, hn, hlen, hz, Nat.add_zero, Nat.add_comm]
    rw [hz] at hcore
    rw [hcore]
    simp
  · -- the size of `write_int_data` is that of the sign, the zeros and the digits
    have hdata : writeIntData num_digits pref specs =
        ⟨core.length, zeros specs lead.length digits.length⟩ := by
      rw [hlen]
      unfold writeIntData zeros
      dsimp only
      rw [hsize, hn]
      split_ifs <;> congr 1 <;> omega
    rw [if_neg hplain, hdata, htext]
    dsimp only
    rw [← hcore]
    exact writePadded_eq (.inr rfl) hw core.length core

theorem writeDigits_intText {value : ℤ} {pref : UInt32} {digits : List CodeUnit} {num_digits : ℕ}
    (hd : digitsText specs value.natAbs = digits) (hn : num_digits = digits.length)
    (hp : IsPrefix pref (signText value specs.sign ++ baseText specs value.natAbs))
    (h0 : 0 ≤ specs.width) (hw : specs.width ≤ intMax) :
    writeDigits num_digits pref specs digits =
      ⟨(paddedText .right specs (intText value specs).length (intText value specs)).length,
        paddedText .right specs (intText value specs).length (intText value specs)⟩ := by
  refine writeDigits_eq hp h0 hw num_digits hn (intText value specs) ?_
  unfold intText
  dsimp only
  rw [hd]

/-- The sign, and behind it the prefix of the base if there is one. -/
theorem isPrefix_append {value : ℤ} {pref v : UInt32} {base : List CodeUnit} {c : Prop}
    [Decidable c] (hs : IsPrefix pref (signText value specs.sign))
    (hb : IsPrefix (prefixAppend pref v) (prefixText pref ++ base)) :
    IsPrefix (if c then prefixAppend pref v else pref)
      (signText value specs.sign ++ if c then base else []) := by
  split_ifs
  · rw [hs.1] at hb
    exact hb
  · rw [List.append_nil]
    exact hs

/-- **An integer is written as its sign, the prefix of its base, zeros and its digits**, between the
fills that its alignment asks for: for each type, the least values included, each presentation as a
number and each width up to `INT_MAX`; and just as much is written as was reserved. -/
theorem write_int_exact (t : IntType) (value : BitVec t.bits) (specs : FormatSpecs)
    (h0 : 0 ≤ specs.width) (hw : specs.width ≤ intMax) (hchr : specs.type ≠ .chr) :
    writeInt t value specs =
      ⟨(paddedText .right specs (intText (t.toInt value) specs).length
          (intText (t.toInt value) specs)).length,
        paddedText .right specs (intText (t.toInt value) specs).length
          (intText (t.toInt value) specs)⟩ := by
  obtain ⟨habs, hsign, hmem⟩ := makeWriteIntArg_spec t value specs.sign
  obtain ⟨hzero, hbase⟩ := prefixAppend_spec _ hmem
  obtain ⟨hhex, hbin⟩ := hbase specs.upper
  have hlt := (makeWriteIntArg t value specs.sign).abs_value.isLt
  unfold writeInt writeIntArg
  dsimp only
  rw [habs] at hlt ⊢
  generalize makeWriteIntArg t value specs.sign = arg at hsign hzero hhex hbin ⊢
  cases htype : specs.type with
  | chr => exact absurd htype hchr
  | hex =>
    have hd : digitsText specs (t.toInt value).natAbs =
        radixText 4 specs.upper (t.toInt value).natAbs := by rw [digitsText, htype]
    dsimp only
    rw [countDigitsRadix_eq (by decide) hlt specs.upper, radixDigits_eq (by decide)]
    refine writeDigits_intText hd rfl ?_ h0 hw
    unfold baseText
    rw [htype]
    exact isPrefix_append hsign hhex
  | oct =>
    have hd : digitsText specs (t.toInt value).natAbs =
        radixText 3 false (t.toInt value).natAbs := by rw [digitsText, htype]
    dsimp only
    rw [countDigitsRadix_eq (by decide) hlt false, radixDigits_eq (by decide)]
    refine writeDigits_intText hd rfl ?_ h0 hw
    unfold baseText
    rw [htype, hd]
    by_cases halt : specs.alt = true
    · rw [if_pos halt]
      simp only [halt, true_and]
      exact isPrefix_append hsign hzero
    · rw [if_neg halt, if_neg fun h => halt h.1, List.append_nil]
      exact hsign
  | bin =>
    have hd : digitsText specs (t.toInt value).natAbs =
        radixText 1 false (t.toInt value).natAbs := by rw [digitsText, htype]
    dsimp only
    rw [countDigitsRadix_eq (by decide) hlt false, radixDigits_eq (by decide)]
    refine writeDigits_intText hd rfl ?_ h0 hw
    unfold baseText
    rw [htype]
    exact isPrefix_append hsign hbin
  | _ =>
    have hd : digitsText specs (t.toInt value).natAbs = decimal (t.toInt value).natAbs := by
      rw [digitsText, htype]
    dsimp only
    rw [countDigits_eq hlt, decimalDigits_eq]
    refine writeDigits_intText hd rfl ?_ h0 hw
    unfold baseText
    rw [htype, ite_self, List.append_nil]
    exact hsign

/-- The least `int` in binary, in the middle of forty asterisks. -/
theorem write_int_exact_min :
    (writeInt .int (-2147483648)
      { width := 38, align := .center, fill := .ofChar 42, alt := true, type := .bin }).text =
      [42] ++ [45, 48, 98, 49] ++ List.replicate 31 48 ++ [42, 42] := by
  rw [write_int_exact .int _ _ (by decide) (by decide) (by decide)]
  decide +kernel

theorem writeIntArg_default {w : ℕ} (arg : WriteIntArg w) :
    writeIntArg arg {} = ⟨countDigits w arg.abs_value.toNat + prefixSize arg.pref,
      prefixText arg.pref ++ decimalDigits arg.abs_value.toNat
        (countDigits w arg.abs_value.toNat)⟩ := by
  unfold writeIntArg writeDigits
  exact if_pos ⟨rfl, rfl⟩

/-- The shorter `write` agrees with the one for default specifiers. -/
theorem writeIntDefault_eq (t : IntType) (value : BitVec t.bits) :
    writeIntDefault t value = writeInt t value {} := by
  unfold writeInt
  rw [writeIntArg_default]
  unfold writeIntDefault makeWriteIntArg
  by_cases hneg : isNegative t value = true
  · have habs : ~~~value + 1 = 0 - value := by
      show ~~~value + 1#t.bits = 0#t.bits - value
      rw [BitVec.zero_sub, BitVec.neg_eq_not_add]
    simp only [hneg, if_true, habs, Nat.add_comm]
    congr 1
  · simp only [hneg, Bool.false_eq_true, if_false, Nat.zero_add]
    congr 1

end SelfStudy.Fmt
