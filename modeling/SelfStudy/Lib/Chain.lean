import Mathlib.Data.List.Infix
import Mathlib.Data.List.Nodup
import Mathlib.Logic.Function.Basic
import Mathlib.Tactic.Common

/-!
# Broken chains

A singly linked queue to which several writers append at once. A writer first makes its node the
last one and only then stores the link from the node that was last before; in between the chain is
broken there, and it can be broken at many places.

`Chain next P l` says that the nodes of `l` are such a chain: of two neighbours the first links to
the second, or its link is null and some writer is about to store it. `P i a b` says that writer `i`
is about to store the link from `a` to `b`.
-/

namespace Lib

universe u v

variable {α : Type u} {ι : Type v}

/-! ## Neighbours -/

theorem adjacent_cons {a b x : α} {l : List α} :
    [a, b] <:+: x :: l ↔ (a = x ∧ l.head? = some b) ∨ [a, b] <:+: l := by
  rw [List.infix_cons_iff]
  refine or_congr_left ?_
  rw [List.cons_prefix_cons]
  refine and_congr_right fun _ => ?_
  cases l with
  | nil => simp
  | cons y l => simp [eq_comm]

theorem adjacent_concat {a b x : α} {l : List α} :
    [a, b] <:+: l ++ [x] ↔ (l.getLast? = some a ∧ b = x) ∨ [a, b] <:+: l := by
  induction l with
  | nil =>
    rw [List.nil_append, adjacent_cons]
    simp
  | cons y l ih =>
    rw [List.cons_append, adjacent_cons, ih, adjacent_cons]
    cases l with
    | nil => simp [@eq_comm _ y a, @eq_comm _ b x]
    | cons z l =>
      rw [List.getLast?_cons_cons]
      exact or_left_comm

theorem mem_of_adjacent {a b : α} {l : List α} (h : [a, b] <:+: l) : a ∈ l ∧ b ∈ l :=
  ⟨h.subset (by simp), h.subset (by simp)⟩

theorem adjacent_right_unique {a b c : α} {l : List α} (hl : l.Nodup) (hb : [a, b] <:+: l)
    (hc : [a, c] <:+: l) : b = c := by
  induction l with
  | nil => simp at hb
  | cons x l ih =>
    obtain ⟨hx, hl⟩ := List.nodup_cons.mp hl
    rcases adjacent_cons.mp hb with ⟨hax, hb'⟩ | hb' <;>
      rcases adjacent_cons.mp hc with ⟨hax', hc'⟩ | hc'
    · exact Option.some.inj (hb'.symm.trans hc')
    · exact absurd (hax ▸ (mem_of_adjacent hc').1) hx
    · exact absurd (hax' ▸ (mem_of_adjacent hb').1) hx
    · exact ih hl hb' hc'

theorem not_adjacent_last {a b : α} {l : List α} (hl : l.Nodup) (ha : l.getLast? = some a) :
    ¬ [a, b] <:+: l := by
  induction l with
  | nil => simp
  | cons x l ih =>
    obtain ⟨hx, hl⟩ := List.nodup_cons.mp hl
    intro h
    rcases adjacent_cons.mp h with ⟨rfl, hb⟩ | h
    · cases l with
      | nil => simp at hb
      | cons y l =>
        rw [List.getLast?_cons_cons] at ha
        exact hx (List.mem_of_getLast? ha)
    · cases l with
      | nil => simp at h
      | cons y l =>
        rw [List.getLast?_cons_cons] at ha
        exact ih hl ha h

theorem exists_adjacent {a : α} {l : List α} (ha : a ∈ l) (hlast : l.getLast? ≠ some a) :
    ∃ b, [a, b] <:+: l := by
  induction l with
  | nil => simp at ha
  | cons x l ih =>
    cases l with
    | nil =>
      obtain rfl := List.mem_singleton.mp ha
      exact absurd rfl hlast
    | cons y l =>
      rcases List.mem_cons.mp ha with rfl | ha
      · exact ⟨y, adjacent_cons.mpr (.inl ⟨rfl, rfl⟩)⟩
      · rw [List.getLast?_cons_cons] at hlast
        obtain ⟨b, hb⟩ := ih ha hlast
        exact ⟨b, adjacent_cons.mpr (.inr hb)⟩

/-! ## Chains -/

/-- The nodes of `l` are a chain that is broken only where a writer is about to link it. -/
structure Chain (next : α → Option α) (P : ι → α → α → Prop) (l : List α) : Prop where
  nodup : l.Nodup
  link : ∀ a b, [a, b] <:+: l → next a = some b ∨ next a = none ∧ ∃ i, P i a b
  last : ∀ a, l.getLast? = some a → next a = none
  pending : ∀ i a b, P i a b → [a, b] <:+: l ∧ next a = none
  unique : ∀ i j a b c, P i a b → P j a c → i = j

/-- From `a` the links go through the nodes of `l` and end there. -/
def Follows (next : α → Option α) : α → List α → Prop
  | a, [] => next a = none
  | a, b :: l => next a = some b ∧ Follows next b l

namespace Chain

variable {next : α → Option α} {P P' : ι → α → α → Prop} {l : List α} {a b : α} {i : ι}

theorem singleton (ha : next a = none) (hP : ∀ i x y, ¬ P i x y) : Chain next P [a] where
  nodup := List.nodup_singleton a
  link x y h := by simp [adjacent_cons] at h
  last x h := by
    obtain rfl : a = x := by simpa using h
    exact ha
  pending i x y h := absurd h (hP i x y)
  unique i _ x y _ h := absurd h (hP i x y)

/-- Only the links of the chain matter. -/
theorem frame {next' : α → Option α} (h : Chain next P l) (hn : ∀ x ∈ l, next' x = next x) :
    Chain next' P l where
  nodup := h.nodup
  link x y hxy := by
    rw [hn x (mem_of_adjacent hxy).1]
    exact h.link x y hxy
  last x hx := by
    rw [hn x (List.mem_of_getLast? hx)]
    exact h.last x hx
  pending j x y hp := by
    obtain ⟨hxy, hx⟩ := h.pending j x y hp
    exact ⟨hxy, by rw [hn x (mem_of_adjacent hxy).1, hx]⟩
  unique := h.unique

theorem congr_pending (h : Chain next P l) (hP : ∀ j x y, P' j x y ↔ P j x y) :
    Chain next P' l := by
  obtain rfl : P' = P := by
    funext j x y
    exact propext (hP j x y)
  exact h

/-- A writer makes `b` the last node; it is then about to link the former last node to it. -/
theorem exchange (h : Chain next P l) (hlast : l.getLast? = some a) (hb : b ∉ l)
    (hnext : next b = none) (hi : ∀ x y, ¬ P i x y)
    (hP : ∀ j x y, P' j x y ↔ P j x y ∨ j = i ∧ x = a ∧ y = b) : Chain next P' (l ++ [b]) where
  nodup := by
    rw [List.nodup_append]
    refine ⟨h.nodup, List.nodup_singleton b, fun x hx y hy => ?_⟩
    obtain rfl := List.mem_singleton.mp hy
    exact fun e => hb (e ▸ hx)
  link x y hxy := by
    rcases adjacent_concat.mp hxy with ⟨hx, rfl⟩ | hxy
    · obtain rfl := Option.some.inj (hlast.symm.trans hx)
      exact .inr ⟨h.last _ hlast, i, (hP i _ _).mpr (.inr ⟨rfl, rfl, rfl⟩)⟩
    · exact (h.link x y hxy).imp id fun ⟨hx, j, hj⟩ => ⟨hx, j, (hP j x y).mpr (.inl hj)⟩
  last x hx := by
    obtain rfl : b = x := by simpa using hx
    exact hnext
  pending j x y hp := by
    rcases (hP j x y).mp hp with hp | ⟨rfl, rfl, rfl⟩
    · obtain ⟨hxy, hx⟩ := h.pending j x y hp
      exact ⟨adjacent_concat.mpr (.inr hxy), hx⟩
    · exact ⟨adjacent_concat.mpr (.inl ⟨hlast, rfl⟩), h.last _ hlast⟩
  unique j k x y z hj hk := by
    -- nobody is about to store the link of the last node
    have hlast' : ∀ j y, ¬ P j a y := fun j y hj =>
      not_adjacent_last h.nodup hlast (h.pending j a y hj).1
    rcases (hP j x y).mp hj with hj | ⟨rfl, rfl, -⟩ <;>
      rcases (hP k x z).mp hk with hk | ⟨rfl, hx, -⟩
    · exact h.unique j k x y z hj hk
    · exact absurd (hx ▸ hj) (hlast' j y)
    · exact absurd hk (hlast' k z)
    · rfl

/-- A writer stores its link. -/
theorem store [DecidableEq α] (h : Chain next P l) (hi : P i a b) (hfun : ∀ x y, P i x y → x = a)
    (hP : ∀ j x y, P' j x y ↔ P j x y ∧ j ≠ i) :
    Chain (Function.update next a (some b)) P' l where
  nodup := h.nodup
  link x y hxy := by
    by_cases hx : x = a
    · subst hx
      left
      rw [Function.update_self, adjacent_right_unique h.nodup (h.pending i _ b hi).1 hxy]
    · rw [Function.update_of_ne hx]
      refine (h.link x y hxy).imp id fun ⟨hn, j, hj⟩ => ⟨hn, j, (hP j x y).mpr ⟨hj, ?_⟩⟩
      rintro rfl
      exact hx (hfun x y hj)
  last x hx := by
    have hne : x ≠ a := by
      rintro rfl
      exact not_adjacent_last h.nodup hx (h.pending i _ b hi).1
    rw [Function.update_of_ne hne]
    exact h.last x hx
  pending j x y hp := by
    obtain ⟨hj, hne⟩ := (hP j x y).mp hp
    obtain ⟨hxy, hx⟩ := h.pending j x y hj
    have hxa : x ≠ a := by
      rintro rfl
      exact hne (h.unique j i _ y b hj hi)
    exact ⟨hxy, by rw [Function.update_of_ne hxa, hx]⟩
  unique j k x y z hj hk := h.unique j k x y z ((hP j x y).mp hj).1 ((hP k x z).mp hk).1

/-- A link that is there leads to the neighbour. -/
theorem pair_of_next (h : Chain next P l) (ha : a ∈ l) (hn : next a = some b) : [a, b] <:+: l := by
  have hlast : l.getLast? ≠ some a := fun e => by
    rw [h.last a e] at hn
    cases hn
  obtain ⟨c, hc⟩ := exists_adjacent ha hlast
  rcases h.link a c hc with hc' | ⟨hc', -⟩ <;> rw [hc'] at hn
  · exact Option.some.inj hn ▸ hc
  · cases hn

theorem head_of_next (h : Chain next P (a :: l)) (hn : next a = some b) : l.head? = some b := by
  rcases adjacent_cons.mp (h.pair_of_next List.mem_cons_self hn) with ⟨-, hb⟩ | hab
  · exact hb
  · exact absurd (mem_of_adjacent hab).1 (List.nodup_cons.mp h.nodup).1

/-- Where the first link is missing the chain ends, or a writer is about to store the link. -/
theorem eq_nil_or_pending (h : Chain next P (a :: l)) (hn : next a = none) :
    l = [] ∨ ∃ i b, P i a b := by
  cases l with
  | nil => exact .inl rfl
  | cons b l =>
    rcases h.link a b (adjacent_cons.mpr (.inl ⟨rfl, rfl⟩)) with hab | ⟨-, i, hi⟩
    · rw [hn] at hab
      cases hab
    · exact .inr ⟨i, b, hi⟩

/-- The reader leaves the first node, whose link is there. -/
theorem advance (h : Chain next P (a :: l)) (hn : next a = some b) : Chain next P l where
  nodup := (List.nodup_cons.mp h.nodup).2
  link x y hxy := h.link x y (adjacent_cons.mpr (.inr hxy))
  last x hx := by
    refine h.last x ?_
    cases l with
    | nil => simp at hx
    | cons y l => rw [List.getLast?_cons_cons, hx]
  pending j x y hp := by
    obtain ⟨hxy, hx⟩ := h.pending j x y hp
    rcases adjacent_cons.mp hxy with ⟨rfl, -⟩ | hxy
    · rw [hx] at hn
      cases hn
    · exact ⟨hxy, hx⟩
  unique := h.unique

/-- Without writers in between the chain is whole. -/
theorem follows (h : Chain next P (a :: l)) (hP : ∀ i x y, ¬ P i x y) : Follows next a l := by
  induction l generalizing a with
  | nil => exact h.last a rfl
  | cons b l ih =>
    have hab : next a = some b := by
      rcases h.link a b (adjacent_cons.mpr (.inl ⟨rfl, rfl⟩)) with hab | ⟨-, i, hi⟩
      · exact hab
      · exact absurd hi (hP i a b)
    exact ⟨hab, ih (h.advance hab)⟩

end Chain

end Lib
