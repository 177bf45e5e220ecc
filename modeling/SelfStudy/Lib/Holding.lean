import Mathlib.Data.Set.Basic
import Mathlib.Tactic.Common

/-!
# Items and their holders

Items are made one after another, numbered from zero, and each has one holder, out of any type of
holders: `Holding` says so of the relation between the two. It is the form of custody for holders
that cannot be counted. A step makes an item, or takes one from its holder and gives it to another.
-/

namespace Lib

universe u

variable {ι : Type u} {n : ℕ} {holds holds' : ι → ℕ → Prop} {h src dst : ι} {o x : ℕ}

/-- Each of the items below `n` has one holder, and there are no others. -/
structure Holding (n : ℕ) (holds : ι → ℕ → Prop) : Prop where
  lt : ∀ h o, holds h o → o < n
  held : ∀ o < n, ∃ h, holds h o
  unique : ∀ o h h', holds h o → holds h' o → h = h'

theorem Holding.existsUnique (H : Holding n holds) (ho : o < n) : ∃! h, holds h o := by
  obtain ⟨h, hh⟩ := H.held o ho
  exact ⟨h, hh, fun h' hh' => H.unique o h' h hh' hh⟩

theorem Holding.congr (H : Holding n holds) (e : ∀ h o, holds' h o ↔ holds h o) :
    Holding n holds' := by
  have : holds' = holds := by
    funext h o
    exact propext (e h o)
  exact this ▸ H

variable (dst) in
/-- **An item is made.** -/
theorem Holding.make (H : Holding n holds)
    (e : ∀ h o, holds' h o ↔ holds h o ∨ h = dst ∧ o = n) : Holding (n + 1) holds' := by
  refine ⟨fun h o hh => ?_, fun o ho => ?_, fun o h h' hh hh' => ?_⟩
  · rcases (e h o).mp hh with hh | ⟨-, rfl⟩
    · exact Nat.lt_succ_of_lt (H.lt h o hh)
    · exact Nat.lt_succ_self o
  · rcases Nat.lt_succ_iff_lt_or_eq.mp ho with ho | rfl
    · obtain ⟨h, hh⟩ := H.held o ho
      exact ⟨h, (e h o).mpr (.inl hh)⟩
    · exact ⟨dst, (e dst o).mpr (.inr ⟨rfl, rfl⟩)⟩
  · rcases (e h o).mp hh with hh | ⟨rfl, rfl⟩ <;> rcases (e h' o).mp hh' with hh' | ⟨rfl, ho⟩
    · exact H.unique o h h' hh hh'
    · exact absurd (H.lt h o hh) (by omega)
    · exact absurd (H.lt h' o hh') (by omega)
    · rfl

variable (dst) in
/-- **An item is passed on.** -/
theorem Holding.move (H : Holding n holds) (hx : holds src x)
    (e : ∀ h o, holds' h o ↔ holds h o ∧ ¬ (h = src ∧ o = x) ∨ h = dst ∧ o = x) :
    Holding n holds' := by
  -- the old holder of the item is the one it is taken from
  have hsrc : ∀ h, holds h x → h = src := fun h hh => H.unique x h src hh hx
  refine ⟨fun h o hh => ?_, fun o ho => ?_, fun o h h' hh hh' => ?_⟩
  · rcases (e h o).mp hh with ⟨hh, -⟩ | ⟨-, rfl⟩
    · exact H.lt h o hh
    · exact H.lt src o hx
  · obtain ⟨h, hh⟩ := H.held o ho
    by_cases hm : h = src ∧ o = x
    · exact ⟨dst, (e dst o).mpr (.inr ⟨rfl, hm.2⟩)⟩
    · exact ⟨h, (e h o).mpr (.inl ⟨hh, hm⟩)⟩
  · rcases (e h o).mp hh with ⟨hh, hne⟩ | ⟨rfl, rfl⟩ <;>
      rcases (e h' o).mp hh' with ⟨hh', hne'⟩ | ⟨rfl, ho⟩
    · exact H.unique o h h' hh hh'
    · subst ho
      exact absurd ⟨hsrc h hh, rfl⟩ hne
    · exact absurd ⟨hsrc h' hh', rfl⟩ hne'
    · rfl

variable (dst) in
/-- **A holder gives all it has**, an item or none, to another. -/
theorem Holding.give {p : Option ℕ} (H : Holding n holds)
    (hsrc : ∀ o, holds src o ↔ p = some o) (hsrc' : ∀ o, ¬ holds' src o)
    (hdst' : ∀ o, holds' dst o ↔ holds dst o ∨ p = some o)
    (e : ∀ h o, h ≠ src → h ≠ dst → (holds' h o ↔ holds h o)) (hne : src ≠ dst) :
    Holding n holds' := by
  cases p with
  | none =>
    refine H.congr fun h o => ?_
    by_cases hs : h = src
    · subst hs
      exact iff_of_false (hsrc' o) fun hh => nomatch (hsrc o).mp hh
    · by_cases hd : h = dst
      · subst hd
        rw [hdst']
        simp
      · exact e h o hs hd
  | some x =>
    refine H.move dst ((hsrc x).mpr rfl) fun h o => ?_
    by_cases hs : h = src
    · subst hs
      refine iff_of_false (hsrc' o) ?_
      rintro (⟨hh, hx⟩ | ⟨rfl, -⟩)
      · exact hx ⟨rfl, (Option.some.inj ((hsrc o).mp hh)).symm⟩
      · exact hne rfl
    · by_cases hd : h = dst
      · subst hd
        rw [hdst', Option.some.injEq]
        simp [hs, eq_comm]
      · exact (e h o hs hd).trans (by simp [hs, hd])

end Lib
