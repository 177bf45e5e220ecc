import Mathlib.Data.List.Nodup
import Mathlib.Logic.Function.Basic
import Mathlib.Tactic.Common

/-!
# A ledger of allocations

A heap gives an address out again once its block is gone, so an address does not tell the blocks
apart. The ledger numbers the blocks in the order of their allocation and counts the deletions of
each. `Accounts g live` says that it fits the addresses allocated now: the block at each of them is
not deleted, and every other block is deleted exactly once.
-/

namespace Lib

/-- `serial a` is the number of the last block allocated at `a`. -/
structure Ledger where
  serial : ℕ → ℕ
  created : ℕ
  deletions : ℕ → ℕ

namespace Ledger

variable {g : Ledger} {live : List ℕ} {a : ℕ}

/-- A block is allocated at `a`. -/
def allocate (g : Ledger) (a : ℕ) : Ledger where
  serial := Function.update g.serial a g.created
  created := g.created + 1
  deletions := g.deletions

/-- The block at `a` is deleted. -/
def delete (g : Ledger) (a : ℕ) : Ledger :=
  { g with deletions := Function.update g.deletions (g.serial a) (g.deletions (g.serial a) + 1) }

/-- The ledger fits the addresses `live` that are allocated. -/
structure Accounts (g : Ledger) (live : List ℕ) : Prop where
  nodup : live.Nodup
  lt : ∀ a ∈ live, g.serial a < g.created
  inj : ∀ a ∈ live, ∀ b ∈ live, g.serial a = g.serial b → a = b
  kept : ∀ a ∈ live, g.deletions (g.serial a) = 0
  once : ∀ k < g.created, g.deletions k = 1 ∨ ∃ a ∈ live, g.serial a = k
  beyond : ∀ k, g.created ≤ k → g.deletions k = 0

/-- The ledger after the first allocation. -/
def first : Ledger := ⟨fun _ => 0, 1, fun _ => 0⟩

theorem accounts_first (a : ℕ) : first.Accounts [a] where
  nodup := List.nodup_singleton a
  lt _ _ := Nat.one_pos
  inj b hb c hc _ := by rw [List.mem_singleton.mp hb, List.mem_singleton.mp hc]
  kept _ _ := rfl
  once k hk := .inr ⟨a, List.mem_singleton_self a, (Nat.lt_one_iff.mp hk).symm⟩
  beyond _ _ := rfl

theorem Accounts.allocate (h : g.Accounts live) (ha : a ∉ live) :
    (g.allocate a).Accounts (a :: live) := by
  have hself : (g.allocate a).serial a = g.created := Function.update_self ..
  have hold : ∀ b ∈ live, (g.allocate a).serial b = g.serial b := by
    intro b hb
    refine Function.update_of_ne ?_ _ _
    rintro rfl
    exact ha hb
  refine ⟨List.nodup_cons.mpr ⟨ha, h.nodup⟩, fun b hb => ?_, fun b hb c hc hbc => ?_,
    fun b hb => ?_, fun k hk => ?_, fun k hk => ?_⟩
  · rcases List.mem_cons.mp hb with rfl | hb
    · rw [hself]
      exact Nat.lt_succ_self _
    · rw [hold b hb]
      exact Nat.lt_succ_of_lt (h.lt b hb)
  · rcases List.mem_cons.mp hb with eb | hb <;> rcases List.mem_cons.mp hc with ec | hc
    · rw [eb, ec]
    · rw [eb, hself, hold c hc] at hbc
      exact absurd hbc.symm (Nat.ne_of_lt (h.lt c hc))
    · rw [ec, hself, hold b hb] at hbc
      exact absurd hbc (Nat.ne_of_lt (h.lt b hb))
    · rw [hold b hb, hold c hc] at hbc
      exact h.inj b hb c hc hbc
  · rcases List.mem_cons.mp hb with rfl | hb
    · rw [hself]
      exact h.beyond _ (Nat.le_refl _)
    · rw [hold b hb]
      exact h.kept b hb
  · rcases Nat.lt_succ_iff_lt_or_eq.mp hk with hk | rfl
    · refine (h.once k hk).imp_right ?_
      rintro ⟨b, hb, rfl⟩
      exact ⟨b, List.mem_cons_of_mem _ hb, hold b hb⟩
    · exact .inr ⟨a, List.mem_cons_self, hself⟩
  · exact h.beyond k (Nat.le_of_succ_le hk)

theorem Accounts.delete (h : g.Accounts live) (ha : a ∈ live) :
    (g.delete a).Accounts (live.erase a) := by
  have hself : (g.delete a).deletions (g.serial a) = 1 := by
    show Function.update g.deletions _ _ _ = 1
    rw [Function.update_self, h.kept a ha]
  have hother : ∀ k, k ≠ g.serial a → (g.delete a).deletions k = g.deletions k := fun k hk =>
    Function.update_of_ne hk _ _
  have hmem : ∀ b ∈ live.erase a, b ∈ live := fun b hb => List.mem_of_mem_erase hb
  refine ⟨h.nodup.erase a, fun b hb => h.lt b (hmem b hb),
    fun b hb c hc => h.inj b (hmem b hb) c (hmem c hc), fun b hb => ?_, fun k hk => ?_,
    fun k hk => ?_⟩
  · obtain ⟨hne, hb⟩ := h.nodup.mem_erase_iff.mp hb
    show (g.delete a).deletions (g.serial b) = 0
    rw [hother _ fun e => hne (h.inj b hb a ha e), h.kept b hb]
  · by_cases hka : k = g.serial a
    · exact .inl (hka ▸ hself)
    · rw [hother k hka]
      refine (h.once k hk).imp_right ?_
      rintro ⟨b, hb, rfl⟩
      have hne : b ≠ a := fun e => hka (e ▸ rfl)
      exact ⟨b, (List.mem_erase_of_ne hne).mpr hb, rfl⟩
  · rw [hother k fun e => absurd (h.lt a ha) (Nat.not_lt.mpr (e ▸ hk))]
    exact h.beyond k hk

/-- No block is deleted twice. -/
theorem Accounts.le_one (h : g.Accounts live) (k : ℕ) : g.deletions k ≤ 1 := by
  by_cases hk : k < g.created
  · rcases h.once k hk with hk | ⟨a, ha, rfl⟩
    · exact Nat.le_of_eq hk
    · rw [h.kept a ha]
      exact Nat.zero_le _
  · rw [h.beyond k (Nat.le_of_not_lt hk)]
    exact Nat.zero_le _

/-- With nothing allocated any more, every block has been deleted exactly once. -/
theorem Accounts.all_deleted (h : g.Accounts []) : ∀ k < g.created, g.deletions k = 1 := by
  intro k hk
  rcases h.once k hk with hk | ⟨a, ha, -⟩
  · exact hk
  · cases ha

end Ledger

end Lib
