import Mathlib.Tactic.Common

/-!
# Items in custody

Items are made one after another, numbered from zero, and each should be in one place at a time.
`kept o` is in how many places the item `o` is. A step makes items, moves them, and may lose one;
`Moves` is that equation. `Custody.step` says that no item ever is in two places, and
`full_iff_of_moves` that every item is in one place as long as none is lost.
-/

namespace Lib

/-- No item is in two places, and there are `n` items. -/
def Custody (n : ℕ) (kept : ℕ → ℕ) : Prop := ∀ o, kept o ≤ if o < n then 1 else 0

/-- Each of the `n` items is in one place. -/
def FullCustody (n : ℕ) (kept : ℕ → ℕ) : Prop := ∀ o, kept o = if o < n then 1 else 0

/-- The items from `n` to `n'` are made, the others stay in as many places as they were, and `lost`
is in one place fewer. -/
structure Moves (n n' : ℕ) (kept kept' : ℕ → ℕ) (lost : Option ℕ) : Prop where
  le : n ≤ n'
  eq : ∀ o, kept' o + (if lost = some o then 1 else 0) =
    kept o + if n ≤ o ∧ o < n' then 1 else 0

variable {n n' : ℕ} {kept kept' : ℕ → ℕ} {lost : Option ℕ} {o : ℕ}

theorem FullCustody.custody (h : FullCustody n kept) : Custody n kept := fun o => Nat.le_of_eq (h o)

theorem Custody.le_one (h : Custody n kept) (o : ℕ) : kept o ≤ 1 := by
  have := h o
  split_ifs at this <;> omega

theorem Custody.lt (h : Custody n kept) (ho : 0 < kept o) : o < n := by
  have := h o
  split_ifs at this with hlt
  · exact hlt
  · omega

theorem FullCustody.eq_one (h : FullCustody n kept) (ho : o < n) : kept o = 1 := by
  rw [h o, if_pos ho]

theorem Moves.refl (n : ℕ) (kept : ℕ → ℕ) : Moves n n kept kept none where
  le := Nat.le_refl n
  eq o := by rw [if_neg nofun, if_neg (by omega)]

/-- The places that a step does not touch make no difference. -/
theorem Moves.of_part {all all' : ℕ → ℕ} (m : Moves n n' kept kept' lost)
    (h : ∀ o, all' o + kept o = all o + kept' o) : Moves n n' all all' lost where
  le := m.le
  eq o := by
    have := m.eq o
    have := h o
    omega

/-- **No item is in two places.** -/
theorem Custody.step (h : Custody n kept) (m : Moves n n' kept kept' lost) : Custody n' kept' := by
  intro o
  have hle := m.le
  have heq := m.eq o
  have ho := h o
  split_ifs at heq ho ⊢ <;> omega

/-- **Every item is in one place, as long as none is lost.** -/
theorem full_iff_of_moves (h : FullCustody n kept) (m : Moves n n' kept kept' lost) :
    FullCustody n' kept' ↔ lost = none := by
  have hle := m.le
  constructor
  · intro h'
    cases lost with
    | none => rfl
    | some o =>
      have heq := m.eq o
      have ho := h o
      have ho' := h' o
      rw [if_pos rfl] at heq
      split_ifs at heq ho ho' <;> omega
  · rintro rfl o
    have heq := m.eq o
    have ho := h o
    rw [if_neg nofun] at heq
    split_ifs at heq ho ⊢ <;> omega

/-! ## Places that hold at most one item -/

/-- How often the item `o` is in a place that holds at most one. -/
def place (h : Option ℕ) (o : ℕ) : ℕ := if h = some o then 1 else 0

@[simp] theorem place_none (o : ℕ) : place none o = 0 := if_neg nofun

theorem count_append_toList (l : List ℕ) (h : Option ℕ) (o : ℕ) :
    (l ++ h.toList).count o = l.count o + place h o := by
  cases h with
  | none => simp
  | some p => simp [place, List.count_singleton]

theorem count_singleton_eq_place (p o : ℕ) : [p].count o = place (some p) o := by
  simp [place, List.count_singleton]

/-- A step that only moves items. -/
theorem FullCustody.move (h : FullCustody n kept) (heq : ∀ o, kept' o = kept o) :
    FullCustody n kept' := fun o => (heq o).trans (h o)

/-- A step that makes one item. -/
theorem FullCustody.make (h : FullCustody n kept) (heq : ∀ o, kept' o = kept o + place (some n) o) :
    FullCustody (n + 1) kept' := by
  have hmoves : Moves n (n + 1) kept kept' none := by
    refine ⟨Nat.le_succ n, fun o => ?_⟩
    rw [heq, if_neg nofun, place]
    simp only [Option.some.injEq]
    split_ifs <;> omega
  exact (full_iff_of_moves h hmoves).mpr rfl

end Lib
