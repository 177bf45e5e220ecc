import Mathlib.Algebra.BigOperators.Group.List.Basic
import Mathlib.Algebra.Ring.Nat
import Mathlib.Tactic.Common

/-!
# Counting threads

The threads of a system are a list of local states, and a step replaces one of them. A count or a
sum over the list then changes by what the step does to that one state.
-/

namespace Lib

universe u

variable {α : Type u} {l : List α} {i : ℕ} {a : α}

/-- A sum over the list after one entry is replaced. -/
theorem sum_map_set (f : α → ℕ) (h : l[i]? = some a) (x : α) :
    ((l.set i x).map f).sum + f a = (l.map f).sum + f x := by
  induction l generalizing i with
  | nil => simp at h
  | cons b l ih =>
    cases i with
    | zero =>
      obtain rfl : b = a := by simpa using h
      simp only [List.set_cons_zero, List.map_cons, List.sum_cons]
      omega
    | succ i =>
      have := ih (i := i) (by simpa using h)
      simp only [List.set_cons_succ, List.map_cons, List.sum_cons]
      omega

theorem countP_set_add (p : α → Bool) (h : l[i]? = some a) (x : α) :
    (l.set i x).countP p + (if p a then 1 else 0) = l.countP p + (if p x then 1 else 0) := by
  induction l generalizing i with
  | nil => simp at h
  | cons b l ih =>
    cases i with
    | zero =>
      obtain rfl : b = a := by simpa using h
      simp only [List.set_cons_zero, List.countP_cons]
      omega
    | succ i =>
      have := ih (i := i) (by simpa using h)
      simp only [List.set_cons_succ, List.countP_cons]
      omega

/-- A sum over the list after one entry is taken out. -/
theorem sum_map_eraseIdx_add (f : α → ℕ) (h : l[i]? = some a) :
    ((l.eraseIdx i).map f).sum + f a = (l.map f).sum := by
  induction l generalizing i with
  | nil => simp at h
  | cons b l ih =>
    cases i with
    | zero =>
      obtain rfl : b = a := by simpa using h
      rw [List.eraseIdx_zero, List.tail_cons, List.map_cons, List.sum_cons, Nat.add_comm]
    | succ i =>
      have := ih (i := i) (by simpa using h)
      simp only [List.eraseIdx_cons_succ, List.map_cons, List.sum_cons]
      omega

/-- Two entries of the list in its sum. -/
theorem add_le_sum_map {j : ℕ} {b : α} (f : α → ℕ) (hi : l[i]? = some a) (hj : l[j]? = some b)
    (hij : i ≠ j) : f a + f b ≤ (l.map f).sum := by
  have hmem : b ∈ l.eraseIdx i := List.mem_eraseIdx_iff_getElem?.mpr ⟨j, Ne.symm hij, hj⟩
  obtain ⟨k, hk⟩ := List.getElem?_of_mem hmem
  have := sum_map_eraseIdx_add f hi
  have := sum_map_eraseIdx_add f hk
  omega

theorem countP_eraseIdx_add (p : α → Bool) (h : l[i]? = some a) :
    (l.eraseIdx i).countP p + (if p a then 1 else 0) = l.countP p := by
  induction l generalizing i with
  | nil => simp at h
  | cons b l ih =>
    cases i with
    | zero =>
      obtain rfl : b = a := by simpa using h
      rw [List.eraseIdx_zero, List.tail_cons, List.countP_cons]
    | succ i =>
      have := ih (i := i) (by simpa using h)
      rw [List.eraseIdx_cons_succ, List.countP_cons, List.countP_cons]
      omega

theorem two_le_countP {p : α → Bool} {j : ℕ} {b : α} (hi : l[i]? = some a) (hj : l[j]? = some b)
    (hij : i ≠ j) (ha : p a = true) (hb : p b = true) : 2 ≤ l.countP p := by
  have hmem : b ∈ l.eraseIdx i := List.mem_eraseIdx_iff_getElem?.mpr ⟨j, Ne.symm hij, hj⟩
  have hpos : 0 < (l.eraseIdx i).countP p := List.countP_pos_iff.mpr ⟨b, hmem, hb⟩
  have := countP_eraseIdx_add p hi
  rw [if_pos ha] at this
  omega

/-- An entry of the list after one is replaced: the new one, or an old one. -/
theorem mem_of_getElem?_set {j : ℕ} {x y : α} (h : (l.set i x)[j]? = some y) :
    j = i ∧ y = x ∨ j ≠ i ∧ l[j]? = some y := by
  rw [List.getElem?_set] at h
  split_ifs at h with hij hi
  · exact .inl ⟨hij.symm, (Option.some.inj h).symm⟩
  · exact .inr ⟨Ne.symm hij, h⟩

/-- An entry of the list is still there after one is replaced, unless it is that one. -/
theorem eq_or_mem_set {b : α} (h : l[i]? = some a) (hb : b ∈ l) (x : α) : b = a ∨ b ∈ l.set i x := by
  obtain ⟨j, hj⟩ := List.getElem?_of_mem hb
  by_cases hij : i = j
  · subst hij
    exact .inl (Option.some.inj (hj.symm.trans h))
  · exact .inr (List.mem_of_getElem? ((List.getElem?_set_ne hij).trans hj))

/-- One entry is replaced by another that is like it. -/
theorem exists_mem_set_iff {P : α → Prop} (h : l[i]? = some a) {x : α} (hx : P x ↔ P a) :
    (∃ y ∈ l.set i x, P y) ↔ ∃ y ∈ l, P y := by
  constructor
  · rintro ⟨y, hy, hp⟩
    rcases List.mem_or_eq_of_mem_set hy with hy | rfl
    · exact ⟨y, hy, hp⟩
    · exact ⟨a, List.mem_of_getElem? h, hx.mp hp⟩
  · rintro ⟨y, hy, hp⟩
    rcases eq_or_mem_set h hy x with rfl | hy
    · exact ⟨x, List.mem_set (List.getElem?_eq_some_iff.mp h).1 x, hx.mpr hp⟩
    · exact ⟨y, hy, hp⟩

theorem getElem?_snoc (l : List α) (x : α) (i : ℕ) :
    (l ++ [x])[i]? = if i = l.length then some x else l[i]? := by
  rcases Nat.lt_trichotomy i l.length with h | rfl | h
  · rw [List.getElem?_append_left h, if_neg (Nat.ne_of_lt h)]
  · simp
  · rw [if_neg (Nat.ne_of_gt h), List.getElem?_eq_none (by simp; omega),
      List.getElem?_eq_none (Nat.le_of_lt h)]

/-- Two lists with the same entries, in the same order, under every key. -/
theorem perm_of_filter_eq {κ : Type*} [DecidableEq κ] {xs ys : List (κ × α)}
    (h : ∀ k, xs.filter (fun e => e.1 = k) = ys.filter fun e => e.1 = k) : xs.Perm ys := by
  classical
  refine List.perm_iff_count.mpr fun e => ?_
  have hcount := congrArg (List.count e) (h e.1)
  rwa [List.count_filter (by simp), List.count_filter (by simp)] at hcount

/-- A write that a projection does not see. -/
theorem map_modify {β : Type*} {f : α → α} {g : α → β} (hf : ∀ a, g (f a) = g a) (l : List α)
    (i : ℕ) : (l.modify i f).map g = l.map g := by
  apply List.ext_getElem?
  intro j
  rw [List.getElem?_map, List.getElem?_map, List.getElem?_modify, Option.map_eq_map, Option.map_map]
  congr 1
  funext a
  rw [Function.comp_apply]
  split_ifs
  · exact hf a
  · rfl

theorem forall_mem_set {P : α → Prop} (h : ∀ y ∈ l, P y) {x : α} (hx : P x) :
    ∀ y ∈ l.set i x, P y := by
  intro y hy
  rcases List.mem_or_eq_of_mem_set hy with hy | rfl
  · exact h y hy
  · exact hx

end Lib
