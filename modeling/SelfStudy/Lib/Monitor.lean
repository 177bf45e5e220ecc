import Mathlib.Data.List.Basic
import Mathlib.Tactic.Common

/-!
# Threads around one lock

The threads of a monitor are a list of local states, some of which are inside the section of the
lock. `Exclusive` says that the lock is held by exactly the thread inside, and `holder` is the local
state of that thread. A monitor's invariant may then be stated of the shared data and of `holder`:
whatever a thread outside does leaves `holder` alone.
-/

namespace Lib.Monitor

universe u

variable {π : Type u} {inside : π → Bool} {lock : Option ℕ} {threads : List π} {i : ℕ} {pc x : π}

/-- The lock is held by exactly the thread inside its section. -/
def Exclusive (inside : π → Bool) (lock : Option ℕ) (threads : List π) : Prop :=
  ∀ i, lock = some i ↔ ∃ pc, threads[i]? = some pc ∧ inside pc = true

/-- The local state of the thread that has the lock. -/
def holder (lock : Option ℕ) (threads : List π) : Option π := lock.bind fun i => threads[i]?

theorem exclusive_none (h : ∀ pc ∈ threads, inside pc = false) : Exclusive inside none threads := by
  intro i
  refine iff_of_false nofun ?_
  rintro ⟨pc, hi, hpc⟩
  rw [h pc (List.mem_of_getElem? hi)] at hpc
  cases hpc

namespace Exclusive

variable (h : Exclusive inside lock threads)
include h

theorem lock_eq (hi : threads[i]? = some pc) (hpc : inside pc = true) : lock = some i :=
  (h i).mpr ⟨pc, hi, hpc⟩

theorem holder_eq (hi : threads[i]? = some pc) (hpc : inside pc = true) :
    holder lock threads = some pc := by
  rw [h.lock_eq hi hpc]
  exact hi

/-- A thread moves, and stays inside or outside. -/
theorem set (hi : threads[i]? = some pc) (hx : inside x = inside pc) :
    Exclusive inside lock (threads.set i x) := by
  intro j
  rw [h j]
  by_cases hj : j = i
  · subst hj
    have hlt := (List.getElem?_eq_some_iff.mp hi).1
    simp only [List.getElem?_set_self hlt, hi, Option.some.injEq, exists_eq_left', hx]
  · rw [List.getElem?_set_ne (Ne.symm hj)]

/-- The threads outside move. -/
theorem map {f : π → π} (hf : ∀ pc, inside (f pc) = inside pc) :
    Exclusive inside lock (threads.map f) := by
  intro j
  rw [h j, List.getElem?_map]
  cases threads[j]? <;> simp [hf]

omit h in
/-- A thread takes the free lock. -/
theorem acquire (h : Exclusive inside none threads) (hi : threads[i]? = some pc)
    (hx : inside x = true) : Exclusive inside (some i) (threads.set i x) := by
  intro j
  by_cases hj : j = i
  · subst hj
    simp [(List.getElem?_eq_some_iff.mp hi).1, hx]
  · rw [List.getElem?_set_ne (Ne.symm hj), ← h j, Option.some.injEq]
    exact iff_of_false (Ne.symm hj) nofun

omit h in
/-- The thread inside leaves and releases the lock. -/
theorem release (h : Exclusive inside (some i) threads) (hx : inside x = false) :
    Exclusive inside none (threads.set i x) := by
  intro j
  refine iff_of_false nofun ?_
  rintro ⟨pc, hj, hpc⟩
  rw [List.getElem?_set] at hj
  split_ifs at hj with hij
  · rw [← Option.some.inj hj, hx] at hpc
    cases hpc
  · exact hij (Option.some.inj ((h j).mpr ⟨pc, hj, hpc⟩))

/-! ## The holder -/

theorem holder_set_inside (hi : threads[i]? = some pc) (hpc : inside pc = true) (x : π) :
    holder lock (threads.set i x) = some x := by
  rw [h.lock_eq hi hpc]
  exact List.getElem?_set_self (List.getElem?_eq_some_iff.mp hi).1

theorem holder_set_outside (hi : threads[i]? = some pc) (hpc : inside pc = false) (x : π) :
    holder lock (threads.set i x) = holder lock threads := by
  cases hl : lock with
  | none => rfl
  | some j =>
    refine List.getElem?_set_ne ?_
    rintro rfl
    obtain ⟨y, hy, hin⟩ := (h i).mp hl
    rw [hi] at hy
    rw [← Option.some.inj hy, hpc] at hin
    cases hin

end Exclusive

theorem holder_acquire (hi : threads[i]? = some pc) (x : π) :
    holder (some i) (threads.set i x) = some x :=
  List.getElem?_set_self (List.getElem?_eq_some_iff.mp hi).1

end Lib.Monitor
