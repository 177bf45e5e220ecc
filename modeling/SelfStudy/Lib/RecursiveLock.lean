import Mathlib.Tactic.Common

/-!
# A recursive lock

The thread that holds a recursive lock may enter it again, and has to leave it as often as it has
entered it. `recursion i` is how often the thread `i` still has to; `enter` and `leave` are not
enabled for a thread that has to wait, or that does not hold the lock.
-/

namespace Lib

/-- A lock that is free, or that a thread has entered `n + 1` times. -/
inductive RecursiveLock (ι : Type*)
  | free
  | held (i : ι) (n : ℕ)
  deriving DecidableEq, Repr

namespace RecursiveLock

variable {ι : Type*}

/-- How often the lock has been entered and not left. -/
def count : RecursiveLock ι → ℕ
  | free => 0
  | held _ n => n + 1

variable [DecidableEq ι]

/-- How often the thread `i` has entered the lock and not left it. -/
def recursion (i : ι) : RecursiveLock ι → ℕ
  | free => 0
  | held j n => if j = i then n + 1 else 0

def enter (i : ι) : RecursiveLock ι → Option (RecursiveLock ι)
  | free => some (held i 0)
  | held j n => if j = i then some (held j (n + 1)) else none

def leave (i : ι) : RecursiveLock ι → Option (RecursiveLock ι)
  | free => none
  | held j 0 => if j = i then some free else none
  | held j (n + 1) => if j = i then some (held j n) else none

variable {l l' : RecursiveLock ι} {i j : ι}

@[simp] theorem recursion_free (i : ι) : (free : RecursiveLock ι).recursion i = 0 := rfl

theorem eq_free_iff : l = free ↔ ∀ i, l.recursion i = 0 := by
  constructor
  · rintro rfl i
    rfl
  · intro h
    cases l with
    | free => rfl
    | held j n =>
      have := h j
      simp [recursion] at this

theorem enter_cases (h : l.enter i = some l') :
    l = free ∧ l' = held i 0 ∨ ∃ n, l = held i n ∧ l' = held i (n + 1) := by
  cases l with
  | free => exact .inl ⟨rfl, (Option.some.inj h).symm⟩
  | held k n =>
    obtain ⟨rfl, h'⟩ := Option.ite_none_right_eq_some.mp h
    exact .inr ⟨n, rfl, (Option.some.inj h').symm⟩

theorem leave_cases (h : l.leave i = some l') :
    l = held i 0 ∧ l' = free ∨ ∃ n, l = held i (n + 1) ∧ l' = held i n := by
  cases l with
  | free => cases h
  | held k n =>
    cases n with
    | zero =>
      obtain ⟨rfl, h'⟩ := Option.ite_none_right_eq_some.mp h
      exact .inl ⟨rfl, (Option.some.inj h').symm⟩
    | succ n =>
      obtain ⟨rfl, h'⟩ := Option.ite_none_right_eq_some.mp h
      exact .inr ⟨n, rfl, (Option.some.inj h').symm⟩

theorem recursion_enter (h : l.enter i = some l') (j : ι) :
    l'.recursion j = l.recursion j + if j = i then 1 else 0 := by
  rcases enter_cases h with ⟨rfl, rfl⟩ | ⟨n, rfl, rfl⟩ <;> by_cases hj : i = j <;>
    simp [recursion, hj, eq_comm]

theorem recursion_leave (h : l.leave i = some l') (j : ι) :
    l'.recursion j + (if j = i then 1 else 0) = l.recursion j := by
  rcases leave_cases h with ⟨rfl, rfl⟩ | ⟨n, rfl, rfl⟩ <;> by_cases hj : i = j <;>
    simp [recursion, hj, eq_comm]

theorem count_enter (h : l.enter i = some l') : l'.count = l.count + 1 := by
  rcases enter_cases h with ⟨rfl, rfl⟩ | ⟨n, rfl, rfl⟩ <;> rfl

theorem count_leave (h : l.leave i = some l') : l'.count = l.count - 1 := by
  rcases leave_cases h with ⟨rfl, rfl⟩ | ⟨n, rfl, rfl⟩ <;> rfl

/-- A thread has to wait only for another one. -/
theorem enter_isSome_iff : (l.enter i).isSome ↔ ∀ j, j ≠ i → l.recursion j = 0 := by
  cases l with
  | free => simp [enter]
  | held k n =>
    by_cases hk : k = i
    · simp [enter, recursion, hk, eq_comm]
    · refine iff_of_false (by simp [enter, hk]) fun h => ?_
      have := h k hk
      simp [recursion] at this

/-- Leaving undoes entering. -/
theorem leave_of_enter (h : l.enter i = some l') : l'.leave i = some l := by
  rcases enter_cases h with ⟨rfl, rfl⟩ | ⟨n, rfl, rfl⟩ <;> exact if_pos rfl

/-- While one thread holds the lock the others wait. -/
theorem enter_eq_none (h : 0 < l.recursion i) (hj : j ≠ i) : l.enter j = none := by
  rw [← Option.not_isSome_iff_eq_none, enter_isSome_iff]
  intro h'
  have := h' i (Ne.symm hj)
  omega

end RecursiveLock

end Lib
