import Mathlib.Data.Nat.Init
import Mathlib.Order.Nat
import SelfStudy.Lib.Machine

/-!
# Infinite schedules

A schedule offers a machine one action in each turn, for ever; `trace` is what becomes of the state.
An action that is not enabled passes without effect.

`trace_invariant` is the induction over the turns. `reaches_of_fair` is the termination argument for
a thread that may have to wait: its own steps go down a measure, nothing goes up it, and every wait
ends.
-/

namespace Lib

universe u v

namespace Machine

variable {σ : Type u} {α : Type v} (M : Machine σ α)

/-- The state after `t` turns of the schedule. -/
def trace (s : σ) (sched : ℕ → α) : ℕ → σ
  | 0 => s
  | t + 1 => (M.step (trace s sched t) (sched t)).getD (trace s sched t)

/-- Some action of the class `A` is offered again and again. -/
def Fair (A : α → Prop) (sched : ℕ → α) : Prop := ∀ t, ∃ t' ≥ t, A (sched t')

variable {M} {s : σ} {sched : ℕ → α}

theorem trace_succ {s' : σ} {t : ℕ} (h : M.step (M.trace s sched t) (sched t) = some s') :
    M.trace s sched (t + 1) = s' := by
  show (M.step _ _).getD _ = s'
  rw [h]; rfl

/-- **Induction over the turns.** What holds at first and is kept by every step holds for ever. -/
theorem trace_invariant {P : σ → Prop} (h : P s)
    (hstep : ∀ s a s', P s → M.step s a = some s' → P s') (t : ℕ) : P (M.trace s sched t) := by
  induction t with
  | zero => exact h
  | succ t ih =>
    cases hs : M.step (M.trace s sched t) (sched t) with
    | none =>
      show P ((M.step _ _).getD _)
      rw [hs]
      exact ih
    | some s' =>
      rw [trace_succ hs]
      exact hstep _ _ _ ih hs

/-- What every step keeps of two states holds of any two turns. -/
theorem trace_relation {R : σ → σ → Prop} (hrefl : ∀ s, R s s)
    (htrans : ∀ s s' s'', R s s' → R s' s'' → R s s'')
    (hstep : ∀ t s', M.step (M.trace s sched t) (sched t) = some s' → R (M.trace s sched t) s')
    {t t' : ℕ} (h : t ≤ t') : R (M.trace s sched t) (M.trace s sched t') := by
  induction t', h using Nat.le_induction with
  | base => exact hrefl _
  | succ t' _ ih =>
    cases hs : M.step (M.trace s sched t') (sched t') with
    | none =>
      show R _ ((M.step _ _).getD _)
      rw [hs]
      exact ih
    | some s' =>
      rw [trace_succ hs]
      exact htrans _ _ _ ih (hstep t' s' hs)

/-- **Termination under fairness.** A step goes down `μ`, or it stays and starts no wait; an action of
the class `A` goes down unless the goal is reached or its thread waits; such actions are offered again
and again, and no wait lasts. Then the goal is reached. -/
theorem reaches_of_fair {A : α → Prop} {G W : σ → Prop} (μ : σ → ℕ)
    (hstep : ∀ t s', M.step (M.trace s sched t) (sched t) = some s' →
      μ s' < μ (M.trace s sched t) ∨ μ s' = μ (M.trace s sched t) ∧ (W s' → W (M.trace s sched t)))
    (hA : ∀ t, A (sched t) → ¬ G (M.trace s sched t) → ¬ W (M.trace s sched t) →
      μ (M.trace s sched (t + 1)) < μ (M.trace s sched t))
    (hfair : Fair A sched)
    (hwait : ∀ t, W (M.trace s sched t) →
      ∃ t' ≥ t, μ (M.trace s sched t') < μ (M.trace s sched t) ∨ ¬ W (M.trace s sched t')) :
    ∃ t, G (M.trace s sched t) := by
  -- over a stretch of turns the measure goes down, or no wait starts
  have hmono : ∀ {t t'}, t ≤ t' → μ (M.trace s sched t') < μ (M.trace s sched t) ∨
      μ (M.trace s sched t') = μ (M.trace s sched t) ∧
        (W (M.trace s sched t') → W (M.trace s sched t)) := by
    intro t t' h
    refine trace_relation (R := fun x y => μ y < μ x ∨ μ y = μ x ∧ (W y → W x))
      (fun x => .inr ⟨rfl, id⟩) (fun x y z hxy hyz => ?_) hstep h
    rcases hxy with hxy | ⟨hxy, hxy'⟩ <;> rcases hyz with hyz | ⟨hyz, hyz'⟩
    · exact .inl (hyz.trans hxy)
    · exact .inl (hyz ▸ hxy)
    · exact .inl (hxy ▸ hyz)
    · exact .inr ⟨hyz.trans hxy, hxy' ∘ hyz'⟩
  have hprogress : ∀ t, ∃ t', G (M.trace s sched t') ∨
      μ (M.trace s sched t') < μ (M.trace s sched t) := by
    intro t
    obtain ⟨t₁, ht₁, h₁⟩ : ∃ t₁ ≥ t, μ (M.trace s sched t₁) < μ (M.trace s sched t) ∨
        ¬ W (M.trace s sched t₁) := by
      by_cases hW : W (M.trace s sched t)
      · exact hwait t hW
      · exact ⟨t, le_rfl, .inr hW⟩
    rcases h₁ with h₁ | h₁
    · exact ⟨t₁, .inr h₁⟩
    obtain ⟨t₂, ht₂, h₂⟩ := hfair t₁
    by_cases hG : G (M.trace s sched t₂)
    · exact ⟨t₂, .inl hG⟩
    have hle : μ (M.trace s sched t₁) ≤ μ (M.trace s sched t) :=
      (hmono ht₁).elim le_of_lt fun h => h.1.le
    rcases hmono ht₂ with h | ⟨h, hW⟩
    · exact ⟨t₂, .inr (h.trans_le hle)⟩
    · have hlt := hA t₂ h₂ hG fun hW₂ => h₁ (hW hW₂)
      exact ⟨t₂ + 1, .inr (hlt.trans_le (h.le.trans hle))⟩
  suffices h : ∀ n t, μ (M.trace s sched t) = n → ∃ t, G (M.trace s sched t) from h _ 0 rfl
  intro n
  induction n using Nat.strongRecOn with
  | _ n ih =>
    rintro t rfl
    obtain ⟨t', hG | hlt⟩ := hprogress t
    · exact ⟨t', hG⟩
    · exact ih _ hlt t' rfl

end Machine

end Lib
