import Mathlib.Data.List.Basic
import SelfStudy.Fmt.CountDigits

/-!
# Integers as text

`format_decimal` and `format_uint` write the digits of an unsigned number into a buffer, from the
last one to the first; `parse_nonnegative_int` reads a number in a format string. A buffer is the
list of its code units, and a pointer into it an offset.
-/

namespace SelfStudy.Fmt

open Lib

/-- A code unit of a string of type `char`. -/
abbrev CodeUnit := UInt8

instance : Coe Char CodeUnit := ⟨Char.toUInt8⟩

theorem forall_codeUnit {P : CodeUnit → Prop} (h : ∀ n : Fin 256, P (UInt8.ofFin n)) :
    ∀ c, P c := fun c => h c.toFin

/-! ## Writing -/

/-- The string of `digits2`. -/
def digits2Table : List CodeUnit :=
  ["0001020304050607080910111213141516171819",
    "2021222324252627282930313233343536373839",
    "4041424344454647484950515253545556575859",
    "6061626364656667686970717273747576777879",
    "8081828384858687888990919293949596979899"].flatMap fun s => s.toList.map Char.toUInt8

/-- What `digits2(value)` points to. -/
def digits2 (value : ℕ) : List CodeUnit := digits2Table.drop (value * 2)

/-- `copy2` to the place `dst` of the buffer. -/
def copy2 (buffer : List CodeUnit) (dst : ℕ) (src : List CodeUnit) : List CodeUnit :=
  (buffer.set dst (src.getD 0 0)).set (dst + 1) (src.getD 1 0)

/-- `static_cast<Char>('0' + value)`. -/
def decimalDigit (value : ℕ) : CodeUnit := UInt8.ofNat (48 + value)

/-- `format_decimal` from the loop on: the buffer, and what is left of `out`. -/
def formatDecimalLoop (buffer : List CodeUnit) (out value : ℕ) : List CodeUnit × ℕ :=
  if 100 ≤ value then
    formatDecimalLoop (copy2 buffer (out - 2) (digits2 (value % 100))) (out - 2) (value / 100)
  else if value < 10 then (buffer.set (out - 1) (decimalDigit value), out - 1)
  else (copy2 buffer (out - 2) (digits2 value), out - 2)
termination_by value
decreasing_by omega

/-- `format_decimal` into a buffer: the buffer afterwards, `begin` and `end`. -/
def formatDecimal (buffer : List CodeUnit) (value size : ℕ) : List CodeUnit × ℕ × ℕ :=
  let (buffer, begin) := formatDecimalLoop buffer size value
  (buffer, begin, size)

/-- `digits[digit]` of `format_uint`, or `'0' + digit` in the small radixes. -/
def radixDigit (base_bits : ℕ) (upper : Bool) (digit : ℕ) : CodeUnit :=
  if base_bits < 4 then decimalDigit digit
  else ((if upper then "0123456789ABCDEF" else "0123456789abcdef").toList.map Char.toUInt8).getD
    digit 0

/-- The loop of `format_uint`. -/
def formatUintLoop (base_bits : ℕ) (upper : Bool) (buffer : List CodeUnit) (out value : ℕ) :
    List CodeUnit :=
  let buffer := buffer.set (out - 1) (radixDigit base_bits upper (value &&& (1 <<< base_bits - 1)))
  if 0 < base_bits ∧ value >>> base_bits ≠ 0 then
    formatUintLoop base_bits upper buffer (out - 1) (value >>> base_bits)
  else buffer
termination_by value
decreasing_by
  rename_i h
  rw [Nat.shiftRight_eq_div_pow] at h ⊢
  refine Nat.div_lt_self ?_ (Nat.one_lt_two_pow h.1.ne')
  by_contra hm
  exact h.2 (by simp [Nat.eq_zero_of_not_pos hm])

/-- `format_uint<BASE_BITS>` into a buffer: the buffer afterwards, and `end`. -/
def formatUint (base_bits : ℕ) (buffer : List CodeUnit) (value num_digits : ℕ) (upper : Bool) :
    List CodeUnit × ℕ :=
  (formatUintLoop base_bits upper buffer num_digits value, num_digits)

/-- The text of a number in decimal. -/
def decimal (n : ℕ) : List CodeUnit := (numeral 10 n).map decimalDigit

/-- The text of a number in the radix `2 ^ base_bits`. -/
def radixText (base_bits : ℕ) (upper : Bool) (n : ℕ) : List CodeUnit :=
  (numeral (2 ^ base_bits) n).map (radixDigit base_bits upper)

/-! ## Reading -/

/-- `'0' <= c && c <= '9'`. -/
def isDigit (c : CodeUnit) : Bool := '0' ≤ c && c ≤ '9'

/-- `c - '0'`. -/
def digitValue (c : CodeUnit) : ℕ := c.toNat - 48

/-- The loop of `parse_nonnegative_int`; `last` is the value of the digit behind `p`. -/
structure DigitScan where
  value : ℕ
  prev : ℕ
  last : ℕ
  num_digits : ℕ
  p : List CodeUnit
  deriving DecidableEq, Repr

/-- The rounds of the loop as long as there is a digit. -/
def scanDigits (value prev last num_digits : ℕ) : List CodeUnit → DigitScan
  | [] => ⟨value, prev, last, num_digits, []⟩
  | c :: p =>
    if isDigit c then
      scanDigits ((value * 10 + digitValue c) % 2 ^ 32) value (digitValue c) (num_digits + 1) p
    else ⟨value, prev, last, num_digits, c :: p⟩

/-- `INT_MAX`. -/
def intMax : ℕ := 2 ^ 31 - 1

/-- `parse_nonnegative_int`: the number, and what is left of the range. -/
def parseNonnegativeInt (begin : List CodeUnit) (error_value : ℤ) : ℤ × List CodeUnit :=
  let s := scanDigits 0 0 0 0 begin
  let digits10 := 4 * 8 * 3 / 10
  if s.num_digits ≤ digits10 then (s.value, s.p)
  else if s.num_digits = digits10 + 1 ∧ s.prev * 10 + s.last ≤ intMax then (s.value, s.p)
  else (error_value, s.p)

/-- The number that a list of digits denotes. -/
def digitsValue (ds : List CodeUnit) : ℕ := ofNumeral 10 (ds.map digitValue)

/-! ## What is written -/

theorem digits2Table_eq : digits2Table =
    (List.range 100).flatMap fun v => [decimalDigit (v / 10), decimalDigit (v % 10)] := by
  decide +kernel

theorem digits2_getD : ∀ v < 100, (digits2 v).getD 0 0 = decimalDigit (v / 10) ∧
    (digits2 v).getD 1 0 = decimalDigit (v % 10) := by
  unfold digits2
  rw [digits2Table_eq]
  decide +kernel

/-- The two digits of a number below a hundred, copied before the end of the first part. -/
theorem copy2_append {v : ℕ} (hv : v < 100) (pre suf : List CodeUnit) (a b : CodeUnit) :
    copy2 (pre ++ [a, b] ++ suf) pre.length (digits2 v) =
      pre ++ decimalDigit (v / 10) :: decimalDigit (v % 10) :: suf := by
  obtain ⟨h0, h1⟩ := digits2_getD v hv
  unfold copy2
  rw [h0, h1, List.append_assoc, List.set_append_right _ _ le_rfl,
    List.set_append_right _ _ (by omega)]
  simp

theorem exists_append_of_le_length {α : Type*} {l : List α} {k : ℕ} (h : k ≤ l.length) :
    ∃ l₁ l₂, l = l₁ ++ l₂ ∧ l₂.length = k :=
  ⟨l.take (l.length - k), l.drop (l.length - k), (List.take_append_drop _ _).symm, by
    rw [List.length_drop]; omega⟩

theorem decimal_of_lt {n : ℕ} (h : n < 10) : decimal n = [decimalDigit n] := by
  unfold decimal
  rw [numeral_of_lt h, List.map_singleton]

theorem decimal_of_le {n : ℕ} (h : 10 ≤ n) :
    decimal n = decimal (n / 10) ++ [decimalDigit (n % 10)] := by
  unfold decimal
  rw [numeral_of_le (by decide) h, List.map_append, List.map_singleton]

theorem length_decimal (n : ℕ) : (decimal n).length = Nat.log 10 n + 1 := by
  unfold decimal
  rw [List.length_map, length_numeral (by decide)]

/-- The digits are written before the offset where there is room for them. -/
theorem formatDecimalLoop_eq (value : ℕ) {pre suf : List CodeUnit}
    (h : (decimal value).length ≤ pre.length) :
    formatDecimalLoop (pre ++ suf) pre.length value =
      (pre.take (pre.length - (decimal value).length) ++ decimal value ++ suf,
        pre.length - (decimal value).length) := by
  induction value using Nat.strongRecOn generalizing pre suf with
  | _ value ih =>
    unfold formatDecimalLoop
    rcases Nat.lt_or_ge value 10 with h1 | h1
    · rw [if_neg (by omega), if_pos h1]
      rw [decimal_of_lt h1] at h ⊢
      obtain ⟨l₁, l₂, rfl, hl⟩ := exists_append_of_le_length (k := 1) h
      obtain ⟨a, rfl⟩ := List.length_eq_one_iff.mp hl
      rw [List.length_append, List.length_singleton, List.length_singleton, Nat.add_sub_cancel,
        List.take_left, List.append_assoc, List.set_append_right _ _ le_rfl]
      simp
    rcases Nat.lt_or_ge value 100 with h2 | h2
    · rw [if_neg (by omega), if_neg (by omega)]
      rw [decimal_of_le h1, decimal_of_lt (Nat.div_lt_of_lt_mul h2)] at h ⊢
      obtain ⟨l₁, l₂, rfl, hl⟩ := exists_append_of_le_length (k := 2) h
      obtain ⟨a, b, rfl⟩ := List.length_eq_two.mp hl
      have hlen : (l₁ ++ [a, b]).length - 2 = l₁.length := by simp
      rw [hlen, copy2_append h2]
      simp
    · rw [if_pos h2]
      have hdec : decimal value = decimal (value / 100) ++
          [decimalDigit (value % 100 / 10), decimalDigit (value % 100 % 10)] := by
        have htens : value / 10 % 10 = value % 100 / 10 := by omega
        rw [decimal_of_le h1, decimal_of_le (n := value / 10) (by omega), Nat.div_div_eq_div_mul,
          List.append_assoc, Nat.mod_mod_of_dvd value (by decide : 10 ∣ 100), htens]
        rfl
      have hlen : (decimal value).length = (decimal (value / 100)).length + 2 := by
        rw [hdec, List.length_append]
        rfl
      obtain ⟨l₁, l₂, rfl, hl⟩ := exists_append_of_le_length (k := 2) (l := pre) (by omega)
      obtain ⟨a, b, rfl⟩ := List.length_eq_two.mp hl
      have hout : (l₁ ++ [a, b]).length - 2 = l₁.length := by simp
      have hpre : (l₁ ++ [a, b]).length = l₁.length + 2 := by simp
      rw [hout, copy2_append (Nat.mod_lt value (by decide)), ih (value / 100) (by omega) (by omega),
        hlen, hpre, Nat.add_sub_add_right]
      rw [List.take_append_of_le_length (by omega), hdec]
      simp

theorem radixText_of_lt {bits n : ℕ} {upper : Bool} (h : n < 2 ^ bits) :
    radixText bits upper n = [radixDigit bits upper n] := by
  unfold radixText
  rw [numeral_of_lt h, List.map_singleton]

theorem radixText_of_le {bits n : ℕ} {upper : Bool} (hb : 0 < bits) (h : 2 ^ bits ≤ n) :
    radixText bits upper n =
      radixText bits upper (n / 2 ^ bits) ++ [radixDigit bits upper (n % 2 ^ bits)] := by
  unfold radixText
  rw [numeral_of_le (Nat.one_lt_two_pow hb.ne') h, List.map_append, List.map_singleton]

theorem length_radixText {bits : ℕ} (hb : 0 < bits) (upper : Bool) (n : ℕ) :
    (radixText bits upper n).length = Nat.log (2 ^ bits) n + 1 := by
  unfold radixText
  rw [List.length_map, length_numeral (Nat.one_lt_two_pow hb.ne')]

/-- `value & ((1 << BASE_BITS) - 1)` is the last digit. -/
theorem and_mask (bits n : ℕ) : n &&& (1 <<< bits - 1) = n % 2 ^ bits := by
  rw [Nat.one_shiftLeft, Nat.and_two_pow_sub_one_eq_mod]

/-- The digits are written before the offset where there is room for them. -/
theorem formatUintLoop_eq {bits : ℕ} (hb : 0 < bits) (upper : Bool) (value : ℕ)
    {pre suf : List CodeUnit} (h : (radixText bits upper value).length ≤ pre.length) :
    formatUintLoop bits upper (pre ++ suf) pre.length value =
      pre.take (pre.length - (radixText bits upper value).length) ++ radixText bits upper value ++
        suf := by
  have hpow : 1 < 2 ^ bits := Nat.one_lt_two_pow hb.ne'
  induction value using Nat.strongRecOn generalizing pre suf with
  | _ value ih =>
    obtain ⟨l₁, l₂, rfl, hl⟩ := exists_append_of_le_length (k := 1) (l := pre)
      (le_trans (by rw [length_radixText hb]; omega) h)
    obtain ⟨a, rfl⟩ := List.length_eq_one_iff.mp hl
    have hlen : (l₁ ++ [a]).length = l₁.length + 1 := by simp
    have hset : ∀ c : CodeUnit, (l₁ ++ [a] ++ suf).set l₁.length c = l₁ ++ c :: suf := by
      intro c
      rw [List.append_assoc, List.set_append_right _ _ le_rfl]
      simp
    unfold formatUintLoop
    rw [and_mask, Nat.shiftRight_eq_div_pow, hlen, Nat.add_sub_cancel, hset]
    split_ifs with hn
    · have hle : 2 ^ bits ≤ value := by
        by_contra hlt
        exact hn.2 (Nat.div_eq_of_lt (not_le.mp hlt))
      rw [radixText_of_le hb hle, List.length_append, List.length_singleton] at h ⊢
      rw [hlen] at h
      show formatUintLoop _ _ _ _ _ = _
      rw [ih _ (Nat.div_lt_self (by omega) hpow) (by omega), Nat.add_sub_add_right,
        List.take_append_of_le_length (by omega)]
      simp
    · have hlt : value < 2 ^ bits := by
        by_contra hge
        exact hn ⟨hb, (Nat.div_pos (not_lt.mp hge) (by omega)).ne'⟩
      rw [Nat.mod_eq_of_lt hlt, radixText_of_lt hlt]
      simp

/-- **The writers.** Where the size given is at least the number of digits and at most that of the
buffer, `format_decimal` and `format_uint` leave the text of the number right before the end given,
and every other code unit as it was. -/
theorem writers_exact (value size : ℕ) (buffer : List CodeUnit) (hbuffer : size ≤ buffer.length) :
    (countDigitsFallback value ≤ size → formatDecimal buffer value size =
      (buffer.take (size - countDigitsFallback value) ++ decimal value ++ buffer.drop size,
        size - countDigitsFallback value, size)) ∧
    ∀ bits upper, 0 < bits → countDigitsBits bits value ≤ size →
      formatUint bits buffer value size upper =
        (buffer.take (size - countDigitsBits bits value) ++ radixText bits upper value ++
          buffer.drop size, size) := by
  have hlen : (buffer.take size).length = size := by rw [List.length_take, min_eq_left hbuffer]
  have hsplit := List.take_append_drop size buffer
  constructor
  · intro h
    rw [countDigitsFallback_eq, ← length_decimal] at h ⊢
    have hle : (decimal value).length ≤ (buffer.take size).length := by rw [hlen]; exact h
    have heq := @formatDecimalLoop_eq value _ (buffer.drop size) hle
    rw [hsplit, hlen, List.take_take, min_eq_left (Nat.sub_le ..)] at heq
    unfold formatDecimal
    rw [heq]
  · intro bits upper hb h
    have hcount : countDigitsBits bits value = (radixText bits upper value).length :=
      (countDigitsBitsLoop_eq hb value 0).trans (length_radixText hb upper value).symm
    rw [hcount] at h ⊢
    have hle : (radixText bits upper value).length ≤ (buffer.take size).length := by
      rw [hlen]
      exact h
    have heq := @formatUintLoop_eq bits hb upper value _ (buffer.drop size) hle
    rw [hsplit, hlen, List.take_take, min_eq_left (Nat.sub_le ..)] at heq
    unfold formatUint
    rw [heq]

/-- Forty-two in front of the last place of a buffer of five. -/
theorem writers_exact_two : formatDecimal [0, 0, 0, 0, 0] 42 4 = ([0, 0, 52, 50, 0], 2, 4) ∧
    formatUint 4 [0, 0, 0, 0, 0] 42 4 false = ([0, 0, 50, 97, 0], 4) := by
  obtain ⟨hdecimal, hradix⟩ := writers_exact 42 4 [0, 0, 0, 0, 0] (by decide)
  have hten : countDigitsFallback 42 = 2 := by simp [countDigitsFallback, countDigitsLoop]
  have hsixteen : countDigitsBits 4 42 = 2 := by simp [countDigitsBits, countDigitsBitsLoop]
  have h := hdecimal (by rw [hten]; decide)
  have h' := hradix 4 false (by decide) (by rw [hsixteen]; decide)
  rw [hten] at h
  rw [hsixteen] at h'
  refine ⟨h.trans ?_, h'.trans ?_⟩
  · decide
  · decide +kernel

/-! ## What is read -/

theorem isDigit_decimalDigit : ∀ d < 10, isDigit (decimalDigit d) = true ∧
    digitValue (decimalDigit d) = d := by
  decide

theorem digitValue_lt {c : CodeUnit} (h : isDigit c = true) : digitValue c < 10 := by
  have hle : c ≤ '9' := decide_eq_true_eq.mp (Bool.and_eq_true_iff.mp h).2
  have hle : c.toNat ≤ 57 := UInt8.le_iff_toNat_le.mp hle
  unfold digitValue
  omega

/-- The next code unit is no digit. -/
def Stops (rest : List CodeUnit) : Prop := ∀ c ∈ rest.head?, isDigit c = false

theorem digitsValue_append_singleton (ds : List CodeUnit) (c : CodeUnit) :
    digitsValue (ds ++ [c]) = digitsValue ds * 10 + digitValue c := by
  unfold digitsValue
  rw [List.map_append, List.map_singleton, ofNumeral_append_singleton]

theorem digitsValue_lt {ds : List CodeUnit} (h : ∀ c ∈ ds, isDigit c = true) :
    digitsValue ds < 10 ^ ds.length := by
  unfold digitsValue
  rw [← List.length_map (f := digitValue)]
  refine ofNumeral_lt fun d hd => ?_
  obtain ⟨c, hc, rfl⟩ := List.mem_map.mp hd
  exact digitValue_lt (h c hc)

theorem scanDigits_stops {rest : List CodeUnit} (h : Stops rest) (value prev last num_digits : ℕ) :
    scanDigits value prev last num_digits rest = ⟨value, prev, last, num_digits, rest⟩ := by
  cases rest with
  | nil => rfl
  | cons c p =>
    have hc : isDigit c = false := h c rfl
    rw [scanDigits, hc]
    rfl

/-- Reading on from a number, and from its remainder. -/
theorem foldl_mod (m : ℕ) (ds : List CodeUnit) (v : ℕ) :
    (ds.foldl (fun v c => v * 10 + digitValue c) (v % m)) % m =
      (ds.foldl (fun v c => v * 10 + digitValue c) v) % m := by
  induction ds generalizing v with
  | nil => exact Nat.mod_mod v m
  | cons c ds ih =>
    rw [List.foldl_cons, List.foldl_cons, ← ih (v % m * 10 + _), ← ih (v * 10 + _)]
    congr 2
    rw [Nat.add_mod, Nat.mul_mod, Nat.mod_mod, ← Nat.mul_mod, ← Nat.add_mod]

theorem digitsValue_eq_foldl (ds : List CodeUnit) :
    digitsValue ds = ds.foldl (fun v c => v * 10 + digitValue c) 0 := by
  unfold digitsValue ofNumeral
  rw [List.foldl_map]

/-- The loop has computed modulo `2 ^ 32`, and counted all the digits. -/
theorem scanDigits_append {es rest : List CodeUnit} {c : CodeUnit}
    (hes : ∀ e ∈ es, isDigit e = true) (hc : isDigit c = true) (hrest : Stops rest)
    {value : ℕ} (hv : value < 2 ^ 32) (prev last num_digits : ℕ) :
    scanDigits value prev last num_digits (es ++ c :: rest) =
      ⟨((es.foldl (fun v c => v * 10 + digitValue c) value) * 10 + digitValue c) % 2 ^ 32,
        (es.foldl (fun v c => v * 10 + digitValue c) value) % 2 ^ 32, digitValue c,
        num_digits + es.length + 1, rest⟩ := by
  induction es generalizing value prev last num_digits with
  | nil =>
    rw [List.nil_append, scanDigits, hc, if_pos rfl, scanDigits_stops hrest, List.foldl_nil,
      Nat.mod_eq_of_lt hv]
    rfl
  | cons e es ih =>
    rw [List.cons_append, scanDigits, hes e List.mem_cons_self, if_pos rfl,
      ih (fun x hx => hes x (List.mem_cons_of_mem e hx)) (Nat.mod_lt _ (by decide)),
      List.foldl_cons, List.length_cons, foldl_mod]
    congr 1
    · rw [Nat.add_mod, Nat.mul_mod, foldl_mod, ← Nat.mul_mod, ← Nat.add_mod]
    · omega

/-- A sequence of digits, leading zeros included. -/
theorem parseNonnegativeInt_append {ds rest : List CodeUnit} (error_value : ℤ) (hne : ds ≠ [])
    (hds : ∀ c ∈ ds, isDigit c = true) (hrest : Stops rest) :
    parseNonnegativeInt (ds ++ rest) error_value =
      (if ds.length ≤ 10 ∧ digitsValue ds ≤ intMax then (digitsValue ds : ℤ) else error_value,
        rest) := by
  obtain ⟨es, c, rfl⟩ : ∃ es c, ds = es ++ [c] :=
    ⟨_, _, (List.dropLast_append_getLast hne).symm⟩
  have hes : ∀ e ∈ es, isDigit e = true := fun e he => hds e (List.mem_append_left _ he)
  have hc : isDigit c = true := hds c (List.mem_append_right _ (List.mem_singleton_self c))
  have hscan := @scanDigits_append es rest c hes hc hrest 0 (by decide) 0 0 0
  rw [← digitsValue_eq_foldl, ← digitsValue_append_singleton] at hscan
  have hlt := digitsValue_lt hds
  have hprev := digitsValue_lt hes
  have hvalue := digitsValue_append_singleton es c
  have hlen : (es ++ [c]).length = es.length + 1 := List.length_append
  unfold parseNonnegativeInt
  rw [List.append_assoc, List.singleton_append, hscan, hlen]
  rw [hlen] at hlt
  generalize digitsValue (es ++ [c]) = v at hlt hvalue ⊢
  generalize digitsValue es = u at hprev hvalue ⊢
  have hmax : intMax = 2147483647 := rfl
  show (if 0 + es.length + 1 ≤ 9 then _ else if 0 + es.length + 1 = 9 + 1 ∧ _ then _ else _) = _
  rcases Nat.lt_trichotomy es.length 9 with h | h | h
  · -- at most nine digits: neither the computation nor the type overflows
    have hle : v < 10 ^ 9 := hlt.trans_le (Nat.pow_le_pow_right (by decide) (by omega))
    rw [if_pos (by omega), if_pos ⟨by omega, by omega⟩, Nat.mod_eq_of_lt (by omega)]
  · -- ten digits: `prev` is exact, and the comparison is made in 64 bits
    rw [h] at hprev
    have hu : u % 2 ^ 32 = u := Nat.mod_eq_of_lt (by omega)
    rw [if_neg (by omega), hu, ← hvalue]
    by_cases hle : v ≤ intMax
    · rw [if_pos ⟨by omega, hle⟩, if_pos ⟨by omega, hle⟩, Nat.mod_eq_of_lt (by omega)]
    · rw [if_neg fun h => hle h.2, if_neg fun h => hle h.2]
  · rw [if_neg (by omega), if_neg fun h' => by omega, if_neg fun h' => by omega]

theorem isDigit_of_mem_decimal {n : ℕ} {c : CodeUnit} (h : c ∈ decimal n) : isDigit c = true := by
  obtain ⟨d, hd, rfl⟩ := List.mem_map.mp h
  exact (isDigit_decimalDigit d (lt_of_mem_numeral (by decide) hd)).1

theorem digitsValue_decimal (n : ℕ) : digitsValue (decimal n) = n := by
  have hmap : (numeral 10 n).map (digitValue ∘ decimalDigit) = numeral 10 n := by
    conv_rhs => rw [← List.map_id (numeral 10 n)]
    exact List.map_congr_left fun d hd =>
      (isDigit_decimalDigit d (lt_of_mem_numeral (by decide) hd)).2
  unfold digitsValue decimal
  rw [List.map_map, hmap, ofNumeral_numeral (by decide)]

/-- The text of a number. -/
theorem parseNonnegativeInt_decimal (n : ℕ) (error_value : ℤ) {rest : List CodeUnit}
    (hrest : Stops rest) : parseNonnegativeInt (decimal n ++ rest) error_value =
      (if n ≤ intMax then (n : ℤ) else error_value, rest) := by
  have hne : decimal n ≠ [] := by
    rw [ne_eq, decimal, List.map_eq_nil_iff]
    exact numeral_ne_nil 10 n
  have hlen : n ≤ intMax → (decimal n).length ≤ 10 := by
    intro hn
    have hlt : n < 10 ^ 10 := hn.trans_lt (by decide)
    rw [length_decimal]
    exact Nat.log_lt_of_lt_pow' (by decide) hlt
  rw [parseNonnegativeInt_append error_value hne (fun c => isDigit_of_mem_decimal) hrest,
    digitsValue_decimal]
  by_cases hn : n ≤ intMax
  · rw [if_pos ⟨hlen hn, hn⟩, if_pos hn]
  · rw [if_neg fun h => hn h.2, if_neg hn]

/-- **Reading a number.** A sequence of digits is read as the number it denotes if that is at most
`INT_MAX` and there are at most ten of them, leading zeros included, and is an error otherwise;
either way reading goes on behind it. So what `format_decimal` writes is read back, and every number
too large is found out. -/
theorem parse_nonnegative_int_exact (error_value : ℤ) (rest : List CodeUnit) (hrest : Stops rest) :
    (∀ ds : List CodeUnit, ds ≠ [] → (∀ c ∈ ds, isDigit c = true) →
      parseNonnegativeInt (ds ++ rest) error_value =
        (if ds.length ≤ 10 ∧ digitsValue ds ≤ intMax then (digitsValue ds : ℤ) else error_value,
          rest)) ∧
    ∀ n, parseNonnegativeInt (decimal n ++ rest) error_value =
      (if n ≤ intMax then (n : ℤ) else error_value, rest) :=
  ⟨fun _ hne hds => parseNonnegativeInt_append error_value hne hds hrest,
    fun n => parseNonnegativeInt_decimal n error_value hrest⟩

/-- The largest number and the next one, in front of the end of a replacement field. -/
theorem parse_nonnegative_int_exact_max :
    parseNonnegativeInt (decimal 2147483647 ++ [('}' : CodeUnit)]) (-1) =
      (2147483647, [('}' : CodeUnit)]) ∧
    parseNonnegativeInt (decimal 2147483648 ++ [('}' : CodeUnit)]) (-1) =
      (-1, [('}' : CodeUnit)]) := by
  have hrest : Stops [('}' : CodeUnit)] := by
    intro c hc
    obtain rfl := Option.some.inj hc
    decide
  obtain ⟨-, h⟩ := parse_nonnegative_int_exact (-1) [('}' : CodeUnit)] hrest
  exact ⟨(h 2147483647).trans rfl, (h 2147483648).trans rfl⟩

end SelfStudy.Fmt
