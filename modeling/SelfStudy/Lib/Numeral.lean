import Mathlib.Data.List.Induction
import Mathlib.Data.Nat.Digits.Defs
import Mathlib.Data.Nat.Log

/-!
# Positional numerals

`numeral b n` are the digits of `n` in base `b`, the most significant one first; zero has one digit.
`ofNumeral b` reads a list of digits, from left to right. The two are inverse to each other on the
numerals without a leading zero, and the number of digits is the logarithm and one.
-/

namespace Lib

/-- The digits of `n` in base `b`, the most significant one first. -/
def numeral (b n : ℕ) : List ℕ := if n = 0 then [0] else (Nat.digits b n).reverse

/-- The number that the digits denote in base `b`, the most significant one first. -/
def ofNumeral (b : ℕ) (ds : List ℕ) : ℕ := ds.foldl (fun v d => v * b + d) 0

variable {b n d : ℕ} {ds es : List ℕ}

/-! ## The digits of a number -/

theorem numeral_of_lt (h : n < b) : numeral b n = [n] := by
  unfold numeral
  split_ifs with hn
  · rw [hn]
  · rw [Nat.digits_of_lt b n hn h, List.reverse_singleton]

/-- The last digit is the remainder. -/
theorem numeral_of_le (hb : 1 < b) (h : b ≤ n) : numeral b n = numeral b (n / b) ++ [n % b] := by
  have hn : n ≠ 0 := by omega
  have hdiv : n / b ≠ 0 := (Nat.div_pos h (by omega)).ne'
  unfold numeral
  rw [if_neg hn, if_neg hdiv, Nat.digits_def' hb (Nat.pos_of_ne_zero hn), List.reverse_cons]

/-- **Induction over the digits**, from the last one to the first. -/
theorem numeral_induction (hb : 1 < b) {P : ℕ → Prop} (lt : ∀ n < b, P n)
    (le : ∀ n, b ≤ n → P (n / b) → P n) (n : ℕ) : P n := by
  induction n using Nat.strongRecOn with
  | _ n ih =>
    rcases Nat.lt_or_ge n b with h | h
    · exact lt n h
    · exact le n h (ih _ (Nat.div_lt_self (by omega) hb))

theorem numeral_ne_nil (b n : ℕ) : numeral b n ≠ [] := by
  unfold numeral
  split_ifs with hn
  · exact List.cons_ne_nil _ _
  · rw [ne_eq, List.reverse_eq_nil_iff]
    exact Nat.digits_ne_nil_iff_ne_zero.mpr hn

/-- The number of digits. -/
theorem length_numeral (hb : 1 < b) (n : ℕ) : (numeral b n).length = Nat.log b n + 1 := by
  induction n using numeral_induction hb with
  | lt n h => rw [numeral_of_lt h, Nat.log_of_lt h, List.length_singleton]
  | le n h ih =>
    rw [numeral_of_le hb h, List.length_append, ih, Nat.log_of_one_lt_of_le hb h,
      List.length_singleton]

theorem lt_of_mem_numeral (hb : 1 < b) (h : d ∈ numeral b n) : d < b := by
  induction n using numeral_induction hb with
  | lt n hn =>
    rw [numeral_of_lt hn] at h
    exact List.mem_singleton.mp h ▸ hn
  | le n hn ih =>
    rw [numeral_of_le hb hn] at h
    rcases List.mem_append.mp h with h | h
    · exact ih h
    · exact List.mem_singleton.mp h ▸ Nat.mod_lt n (by omega)

/-! ## The number of the digits -/

@[simp] theorem ofNumeral_nil (b : ℕ) : ofNumeral b [] = 0 := rfl

theorem ofNumeral_append_singleton (b : ℕ) (ds : List ℕ) (d : ℕ) :
    ofNumeral b (ds ++ [d]) = ofNumeral b ds * b + d := by
  unfold ofNumeral
  rw [List.foldl_append]
  rfl

/-- Leading zeros do not count. -/
theorem ofNumeral_replicate_zero (b k : ℕ) (ds : List ℕ) :
    ofNumeral b (List.replicate k 0 ++ ds) = ofNumeral b ds := by
  induction k with
  | zero => rfl
  | succ k ih =>
    rw [← ih]
    unfold ofNumeral
    rw [List.replicate_succ, List.cons_append, List.foldl_cons, Nat.zero_mul]

/-- Digits below the base denote a number below the power of their count. -/
theorem ofNumeral_lt (h : ∀ d ∈ ds, d < b) : ofNumeral b ds < b ^ ds.length := by
  induction ds using List.reverseRecOn with
  | nil => exact Nat.one_pos
  | append_singleton ds d ih =>
    have hd : d < b := h d (List.mem_append_right _ (List.mem_singleton_self d))
    have hv : ofNumeral b ds + 1 ≤ b ^ ds.length := ih fun e he => h e (List.mem_append_left _ he)
    rw [ofNumeral_append_singleton, List.length_append, List.length_singleton, pow_succ]
    calc ofNumeral b ds * b + d < ofNumeral b ds * b + b := Nat.add_lt_add_left hd _
      _ = (ofNumeral b ds + 1) * b := (Nat.succ_mul ..).symm
      _ ≤ b ^ ds.length * b := Nat.mul_le_mul_right b hv

/-- Without a leading zero, the number is at least the power that its first digit counts. -/
theorem le_ofNumeral (hd : 0 < d) (ds : List ℕ) : b ^ ds.length ≤ ofNumeral b (d :: ds) := by
  induction ds using List.reverseRecOn with
  | nil =>
    show 1 ≤ 0 * b + d
    omega
  | append_singleton ds e ih =>
    rw [← List.cons_append, ofNumeral_append_singleton, List.length_append, List.length_singleton,
      pow_succ]
    exact (Nat.mul_le_mul_right b ih).trans (Nat.le_add_right _ e)

/-- Reading the digits of a number gives the number back. -/
@[simp] theorem ofNumeral_numeral (hb : 1 < b) (n : ℕ) : ofNumeral b (numeral b n) = n := by
  induction n using numeral_induction hb with
  | lt n h =>
    rw [numeral_of_lt h]
    show 0 * b + n = n
    omega
  | le n h ih =>
    rw [numeral_of_le hb h, ofNumeral_append_singleton, ih]
    exact Nat.div_add_mod' n b

end Lib
