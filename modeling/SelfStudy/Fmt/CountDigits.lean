import Mathlib.Tactic.IntervalCases
import SelfStudy.Lib.Numeral

/-!
# Counting digits

`count_digits` of `format.h` in its versions: the loop that divides, the two tables indexed by the
position of the highest bit, and the versions for a radix that is a power of two. The tables are
right because the powers of two and of ten lie as they do; that is a finite check for each entry, and
`log_add_one_of_bounds` turns it into a statement about all numbers with that highest bit.
-/

namespace SelfStudy.Fmt

open Lib

/-! ## The versions -/

/-- The loop of `count_digits_fallback`, from `count` on. -/
def countDigitsLoop (n count : ℕ) : ℕ :=
  if n < 10 then count
  else if n < 100 then count + 1
  else if n < 1000 then count + 2
  else if n < 10000 then count + 3
  else countDigitsLoop (n / 10000) (count + 4)
termination_by n
decreasing_by omega

def countDigitsFallback (n : ℕ) : ℕ := countDigitsLoop n 1

/-- `FMT_BUILTIN_CLZLL` and `FMT_BUILTIN_CLZ`: the leading zeros of a nonzero number of `bits`
bits. -/
def clz (bits n : ℕ) : ℕ := bits - 1 - Nat.log 2 n

/-- `ceil(log10(pow(2, bsr(n) + 1) - 1))` by `bsr(n)`. -/
def bsr2log10 : List ℕ :=
  [1, 1, 1, 2, 2, 2, 3, 3, 3, 4, 4, 4, 4, 5, 5, 5,
    6, 6, 6, 7, 7, 7, 7, 8, 8, 8, 9, 9, 9, 10, 10, 10,
    10, 11, 11, 11, 12, 12, 12, 13, 13, 13, 13, 14, 14, 14, 15, 15,
    15, 16, 16, 16, 16, 17, 17, 17, 18, 18, 18, 19, 19, 19, 19, 20]

/-- `FMT_POWERS_OF_10(factor)`. -/
def powersOf10 (factor : ℕ) : List ℕ :=
  [factor * 10, factor * 100, factor * 1000, factor * 10000, factor * 100000, factor * 1000000,
    factor * 10000000, factor * 100000000, factor * 1000000000]

def zeroOrPowersOf10 : List ℕ :=
  [0, 0] ++ powersOf10 1 ++ powersOf10 1000000000 ++ [10000000000000000000]

/-- `do_count_digits(uint64_t)`. -/
def doCountDigits64 (n : ℕ) : ℕ :=
  let t := bsr2log10.getD (clz 64 (n ||| 1) ^^^ 63) 0
  t - if n < zeroOrPowersOf10.getD t 0 then 1 else 0

/-- `FMT_INC(T)`, where the literal `T` has `len` characters. -/
def fmtInc (len t : ℕ) : ℕ := len <<< 32 - t

def incTable : List ℕ :=
  [fmtInc 1 0, fmtInc 1 0, fmtInc 1 0, fmtInc 2 10, fmtInc 2 10, fmtInc 2 10,
    fmtInc 3 100, fmtInc 3 100, fmtInc 3 100, fmtInc 4 1000, fmtInc 4 1000, fmtInc 4 1000,
    fmtInc 5 10000, fmtInc 5 10000, fmtInc 5 10000, fmtInc 6 100000, fmtInc 6 100000,
    fmtInc 6 100000, fmtInc 7 1000000, fmtInc 7 1000000, fmtInc 7 1000000, fmtInc 8 10000000,
    fmtInc 8 10000000, fmtInc 8 10000000, fmtInc 9 100000000, fmtInc 9 100000000,
    fmtInc 9 100000000, fmtInc 10 1000000000, fmtInc 10 1000000000, fmtInc 10 1000000000,
    fmtInc 10 1000000000, fmtInc 10 1000000000]

/-- `do_count_digits(uint32_t)`. -/
def doCountDigits32 (n : ℕ) : ℕ := (n + incTable.getD (clz 32 (n ||| 1) ^^^ 31) 0) >>> 32

/-- The loop of `count_digits<BITS>` from `num_digits` on. -/
def countDigitsBitsLoop (bits m num_digits : ℕ) : ℕ :=
  if 0 < bits ∧ m >>> bits ≠ 0 then countDigitsBitsLoop bits (m >>> bits) (num_digits + 1)
  else num_digits + 1
termination_by m
decreasing_by
  rename_i h
  rw [Nat.shiftRight_eq_div_pow] at h ⊢
  refine Nat.div_lt_self ?_ (Nat.one_lt_two_pow h.1.ne')
  by_contra hm
  exact h.2 (by simp [Nat.eq_zero_of_not_pos hm])

/-- `count_digits<BITS>`. -/
def countDigitsBits (bits n : ℕ) : ℕ := countDigitsBitsLoop bits n 0

/-- `count_digits<BITS>` of a 32-bit number, where the compiler has a builtin for the leading
zeros. -/
def countDigitsBits32 (bits n : ℕ) : ℕ := (clz 32 (n ||| 1) ^^^ 31) / bits + 1

/-! ## The loops -/

variable {n : ℕ}

theorem countDigitsLoop_eq (n count : ℕ) : countDigitsLoop n count = Nat.log 10 n + count := by
  induction n using Nat.strongRecOn generalizing count with
  | _ n ih =>
    have hdiv : ∀ {m}, 10 ≤ m → Nat.log 10 m = Nat.log 10 (m / 10) + 1 :=
      fun h => Nat.log_of_one_lt_of_le (by decide) h
    unfold countDigitsLoop
    split_ifs with h1 h2 h3 h4
    · rw [Nat.log_of_lt h1, Nat.zero_add]
    · rw [hdiv (by omega), Nat.log_of_lt (by omega), Nat.zero_add, Nat.add_comm]
    · rw [hdiv (by omega), hdiv (by omega), Nat.log_of_lt (by omega)]
      omega
    · rw [hdiv (by omega), hdiv (by omega), hdiv (by omega), Nat.log_of_lt (by omega)]
      omega
    · have h : n / 10 / 10 / 10 / 10 = n / 10000 := by simp only [Nat.div_div_eq_div_mul]
      have hlog : Nat.log 10 n = Nat.log 10 (n / 10000) + 4 := by
        rw [← h, hdiv (by omega), hdiv (by omega), hdiv (by omega), hdiv (by omega)]
      rw [ih (n / 10000) (by omega), hlog]
      omega

theorem countDigitsFallback_eq (n : ℕ) : countDigitsFallback n = Nat.log 10 n + 1 :=
  countDigitsLoop_eq n 1

theorem countDigitsBitsLoop_eq {bits : ℕ} (hb : 0 < bits) (m num_digits : ℕ) :
    countDigitsBitsLoop bits m num_digits = Nat.log (2 ^ bits) m + 1 + num_digits := by
  have hpow : 1 < 2 ^ bits := Nat.one_lt_two_pow hb.ne'
  induction m using Nat.strongRecOn generalizing num_digits with
  | _ m ih =>
    unfold countDigitsBitsLoop
    rw [Nat.shiftRight_eq_div_pow]
    split_ifs with h
    · have hle : 2 ^ bits ≤ m := by
        by_contra hlt
        exact h.2 (Nat.div_eq_of_lt (not_le.mp hlt))
      rw [ih _ (Nat.div_lt_self (by omega) hpow), Nat.log_of_one_lt_of_le hpow hle]
      omega
    · have hlt : m < 2 ^ bits := by
        by_contra hle
        exact h ⟨hb, (Nat.div_pos (not_lt.mp hle) (by omega)).ne'⟩
      rw [Nat.log_of_lt hlt]
      omega

/-! ## The tables -/

/-- The position of the highest bit, which is the first one for zero. -/
theorem bsr_eq {bits : ℕ} (hbits : bits = 32 ∨ bits = 64) (h : n < 2 ^ bits) :
    clz bits (n ||| 1) ^^^ (bits - 1) = Nat.log 2 n := by
  have hlog : Nat.log 2 (n ||| 1) = Nat.log 2 n := by
    rcases Nat.lt_or_ge n 2 with hn | hn
    · interval_cases n <;> rfl
    · have hdiv : (n ||| 1) / 2 = n / 2 := by rw [Nat.or_div_two, Nat.or_zero]
      have hle : 2 ≤ n ||| 1 := hn.trans Nat.left_le_or
      rw [Nat.log_of_one_lt_of_le one_lt_two hle, Nat.log_of_one_lt_of_le one_lt_two hn, hdiv]
  have hlt : Nat.log 2 n < bits := by
    rcases Nat.eq_zero_or_pos n with rfl | hn
    · rcases hbits with rfl | rfl <;> decide
    · exact Nat.log_lt_of_lt_pow hn.ne' h
  unfold clz
  rw [hlog]
  generalize Nat.log 2 n = b at hlt
  rcases hbits with rfl | rfl
  · revert b; decide
  · revert b; decide

/-- Between two powers of ten that are two apart, the one in the middle decides. -/
theorem log_add_one_of_bounds {k : ℕ} (hk : 2 ≤ k) (hlo : 10 ^ (k - 2) ≤ n) (hhi : n < 10 ^ k) :
    Nat.log 10 n + 1 = if n < 10 ^ (k - 1) then k - 1 else k := by
  have h1 : k - 2 + 1 = k - 1 := by omega
  have h2 : k - 1 + 1 = k := by omega
  split_ifs with h
  · rw [Nat.log_eq_of_pow_le_of_lt_pow hlo (h1 ▸ h), h1]
  · rw [Nat.log_eq_of_pow_le_of_lt_pow (not_lt.mp h) (h2 ▸ hhi), h2]

/-- The entry for the highest bit `b`: one digit, or the powers of ten around it. -/
theorem bsr2log10_spec : ∀ b < 64, bsr2log10.getD b 0 = 1 ∧ 2 ^ (b + 1) ≤ 10 ∨
    2 ≤ bsr2log10.getD b 0 ∧ 10 ^ (bsr2log10.getD b 0 - 2) ≤ 2 ^ b ∧
      2 ^ (b + 1) ≤ 10 ^ bsr2log10.getD b 0 ∧
      zeroOrPowersOf10.getD (bsr2log10.getD b 0) 0 = 10 ^ (bsr2log10.getD b 0 - 1) := by
  decide

/-- The entry for the highest bit `b`: it carries a one into the upper half, or it carries one more
from the power of ten on. -/
theorem incTable_spec : ∀ b < 32, incTable.getD b 0 = 2 ^ 32 ∧ 2 ^ (b + 1) ≤ 10 ∨
    b ≠ 0 ∧ ∃ k < 11, 2 ≤ k ∧ 10 ^ (k - 2) ≤ 2 ^ b ∧ 2 ^ (b + 1) ≤ 10 ^ k ∧
      10 ^ (k - 1) ≤ 2 ^ 32 ∧ incTable.getD b 0 = k * 2 ^ 32 - 10 ^ (k - 1) := by
  decide

theorem lt_two_pow_log_succ (n : ℕ) : n < 2 ^ (Nat.log 2 n + 1) :=
  Nat.lt_pow_succ_log_self one_lt_two n

theorem doCountDigits64_eq (h : n < 2 ^ 64) : doCountDigits64 n = Nat.log 10 n + 1 := by
  have hb : Nat.log 2 n < 64 := by
    rcases Nat.eq_zero_or_pos n with rfl | hn
    · decide
    · exact Nat.log_lt_of_lt_pow hn.ne' h
  have hhi := lt_two_pow_log_succ n
  unfold doCountDigits64
  rw [bsr_eq (.inr rfl) h]
  rcases bsr2log10_spec _ hb with ⟨ht, hle⟩ | ⟨hk, hlo, hle, hz⟩
  · rw [ht, Nat.log_of_lt (hhi.trans_le hle)]
    rfl
  · have hn : n ≠ 0 := by
      rintro rfl
      rw [Nat.log_zero_right] at hk
      exact absurd hk (by decide)
    have hlo := hlo.trans (Nat.pow_log_le_self 2 hn)
    show bsr2log10.getD _ 0 - _ = _
    rw [hz, log_add_one_of_bounds hk hlo (hhi.trans_le hle)]
    split_ifs <;> rfl

theorem doCountDigits32_eq (h : n < 2 ^ 32) : doCountDigits32 n = Nat.log 10 n + 1 := by
  have hb : Nat.log 2 n < 32 := by
    rcases Nat.eq_zero_or_pos n with rfl | hn
    · decide
    · exact Nat.log_lt_of_lt_pow hn.ne' h
  have hhi := lt_two_pow_log_succ n
  unfold doCountDigits32
  rw [bsr_eq (.inl rfl) h, Nat.shiftRight_eq_div_pow]
  rcases incTable_spec _ hb with ⟨ht, hle⟩ | ⟨hz, k, -, hk, hlo, hle, hpow, hinc⟩
  · rw [ht, Nat.log_of_lt (hhi.trans_le hle), Nat.add_div_right n (by decide),
      Nat.div_eq_of_lt h]
  · have hn : n ≠ 0 := by
      rintro rfl
      exact hz (Nat.log_zero_right 2)
    have hlo := hlo.trans (Nat.pow_log_le_self 2 hn)
    rw [hinc, log_add_one_of_bounds hk hlo (hhi.trans_le hle)]
    generalize 10 ^ (k - 1) = p at hpow ⊢
    split_ifs with hp
    · rw [Nat.div_eq_iff (by decide)]
      omega
    · rw [Nat.div_eq_iff (by decide)]
      omega

theorem countDigitsBits32_eq {bits : ℕ} (hb : 0 < bits) (h : n < 2 ^ 32) :
    countDigitsBits32 bits n = Nat.log (2 ^ bits) n + 1 := by
  unfold countDigitsBits32
  rw [bsr_eq (.inl rfl) h, Nat.log_pow_left]

/-! ## What the versions count -/

/-- **All the versions count the digits.** They agree wherever two of them apply, and the number is
that of the digits of the numeral. -/
theorem count_digits_exact (n : ℕ) :
    countDigitsFallback n = (numeral 10 n).length ∧
    (n < 2 ^ 64 → doCountDigits64 n = (numeral 10 n).length) ∧
    (n < 2 ^ 32 → doCountDigits32 n = (numeral 10 n).length) ∧
    ∀ bits > 0, countDigitsBits bits n = (numeral (2 ^ bits) n).length ∧
      (n < 2 ^ 32 → countDigitsBits32 bits n = (numeral (2 ^ bits) n).length) := by
  rw [length_numeral (by decide)]
  refine ⟨countDigitsFallback_eq n, doCountDigits64_eq, doCountDigits32_eq, fun bits hb => ?_⟩
  rw [length_numeral (Nat.one_lt_two_pow hb.ne')]
  exact ⟨countDigitsBitsLoop_eq hb n 0, countDigitsBits32_eq hb⟩

end SelfStudy.Fmt
