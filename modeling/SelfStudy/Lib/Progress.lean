import SelfStudy.Lib.Schedule

/-!
# Progress along a schedule

`M.LeadsTo s sched P Q`: in the trace of the schedule, whenever `P` holds, `Q` holds then or later.
The rules are those by which such facts are put together: one helpful class of actions that the
schedule offers again and again (`of_fair`), a measure that this class brings down
(`of_fair_measure`), a state that cannot last (`of_leaves`), a measure that other facts bring down
(`of_measure`), one after the other (`trans`), and case distinction (`or`, `of_exists`).

`delivers` is about queues: where the oldest element is always taken out in the end, every element
is, and at its own place in the order.
-/

namespace Lib

namespace Machine

universe u v w

variable {σ : Type u} {α : Type v} (M : Machine σ α)

/-- Whenever `P` holds, `Q` holds then or later. -/
def LeadsTo (s : σ) (sched : ℕ → α) (P Q : σ → Prop) : Prop :=
  ∀ t, P (M.trace s sched t) → ∃ t' ≥ t, Q (M.trace s sched t')

variable {M} {s : σ} {sched : ℕ → α} {P P' Q Q' R : σ → Prop}

theorem trace_reachable (h : M.Reachable s) (t : ℕ) : M.Reachable (M.trace s sched t) :=
  trace_invariant h (fun _ _ _ hr hs => hr.step trivial hs) t

/-- A turn performs the step that it offers or changes nothing. -/
theorem trace_succ_cases (M : Machine σ α) (s : σ) (sched : ℕ → α) (t : ℕ) :
    M.step (M.trace s sched t) (sched t) = some (M.trace s sched (t + 1)) ∨
      M.trace s sched (t + 1) = M.trace s sched t := by
  cases hs : M.step (M.trace s sched t) (sched t) with
  | some s' => exact .inl (trace_succ hs ▸ rfl)
  | none =>
    right
    show (M.step _ _).getD _ = _
    rw [hs]
    rfl

namespace LeadsTo

theorem of_imp (h : ∀ t, P (M.trace s sched t) → Q (M.trace s sched t)) : M.LeadsTo s sched P Q :=
  fun t ht => ⟨t, le_rfl, h t ht⟩

theorem trans (h : M.LeadsTo s sched P Q) (h' : M.LeadsTo s sched Q R) : M.LeadsTo s sched P R := by
  intro t ht
  obtain ⟨t₁, h₁, hQ⟩ := h t ht
  obtain ⟨t₂, h₂, hR⟩ := h' t₁ hQ
  exact ⟨t₂, le_trans h₁ h₂, hR⟩

theorem or (h : M.LeadsTo s sched P R) (h' : M.LeadsTo s sched Q R) :
    M.LeadsTo s sched (fun x => P x ∨ Q x) R :=
  fun t ht => ht.elim (h t) (h' t)

theorem of_exists {ι : Type w} {P : ι → σ → Prop} (h : ∀ i, M.LeadsTo s sched (P i) Q) :
    M.LeadsTo s sched (fun x => ∃ i, P i x) Q :=
  fun t ht => let ⟨i, hi⟩ := ht; h i t hi

theorem mono (h : M.LeadsTo s sched P Q) (hP : ∀ t, P' (M.trace s sched t) → P (M.trace s sched t))
    (hQ : ∀ x, Q x → Q' x) : M.LeadsTo s sched P' Q' := by
  intro t ht
  obtain ⟨t', h', hq⟩ := h t (hP t ht)
  exact ⟨t', h', hQ _ hq⟩

/-- A state that every step keeps until `Q` is reached, some turns later. -/
theorem keeps_or_reaches
    (hstep : ∀ t s', P (M.trace s sched t) → M.step (M.trace s sched t) (sched t) = some s' →
      P s' ∨ Q s') {t u : ℕ} (ht : P (M.trace s sched t)) (hu : t ≤ u) :
    P (M.trace s sched u) ∨ ∃ t' ≥ t, Q (M.trace s sched t') := by
  induction u, hu using Nat.le_induction with
  | base => exact .inl ht
  | succ u hu ih =>
    rcases ih with hP | hQ
    · rcases trace_succ_cases M s sched u with hs | hs
      · rcases hstep u _ hP hs with hP' | hQ'
        · exact .inl hP'
        · exact .inr ⟨u + 1, Nat.le_succ_of_le hu, hQ'⟩
      · exact .inl (hs ▸ hP)
    · exact .inr hQ

/-- **One fair class.** Every step keeps `P` or reaches `Q`, and the actions of the class `A` reach
`Q`; the schedule offers such actions again and again. -/
theorem of_fair {A : α → Prop}
    (hstep : ∀ t s', P (M.trace s sched t) → M.step (M.trace s sched t) (sched t) = some s' →
      P s' ∨ Q s')
    (hact : ∀ t, A (sched t) → P (M.trace s sched t) →
      ∃ s', M.step (M.trace s sched t) (sched t) = some s' ∧ Q s')
    (hfair : Fair A sched) : M.LeadsTo s sched P Q := by
  intro t ht
  obtain ⟨u, hu, hA⟩ := hfair t
  rcases keeps_or_reaches hstep ht hu with hP | hQ
  · obtain ⟨s', hs', hQ⟩ := hact u hA hP
    exact ⟨u + 1, Nat.le_succ_of_le hu, trace_succ hs' ▸ hQ⟩
  · exact hQ

/-- **Not for ever.** Every step keeps `P` or reaches `Q`, and `P` does not last. -/
theorem of_leaves
    (hstep : ∀ t s', P (M.trace s sched t) → M.step (M.trace s sched t) (sched t) = some s' →
      P s' ∨ Q s')
    (hleave : M.LeadsTo s sched P fun x => ¬ P x) : M.LeadsTo s sched P Q := by
  intro t ht
  obtain ⟨u, hu, hnot⟩ := hleave t ht
  exact (keeps_or_reaches hstep ht hu).resolve_left hnot

/-- **Induction over a measure.** From every value of the measure the state reaches `Q` or a smaller
value. -/
theorem of_measure (μ : σ → ℕ)
    (h : ∀ n, M.LeadsTo s sched (fun x => P x ∧ μ x = n) fun x => Q x ∨ P x ∧ μ x < n) :
    M.LeadsTo s sched P Q := by
  suffices hn : ∀ n t, μ (M.trace s sched t) = n → P (M.trace s sched t) →
      ∃ t' ≥ t, Q (M.trace s sched t') from fun t ht => hn _ t rfl ht
  intro n
  induction n using Nat.strongRecOn with
  | _ n ih =>
    intro t hμ hP
    obtain ⟨t₁, h₁, hQ | ⟨hP', hlt⟩⟩ := h n t ⟨hP, hμ⟩
    · exact ⟨t₁, h₁, hQ⟩
    · obtain ⟨t₂, h₂, hQ⟩ := ih _ hlt t₁ rfl hP'
      exact ⟨t₂, le_trans h₁ h₂, hQ⟩

/-- **One fair class and a measure.** No step raises the measure while `P` lasts, and the actions of
the class `A` lower it. -/
theorem of_fair_measure {A : α → Prop} (μ : σ → ℕ)
    (hstep : ∀ t s', P (M.trace s sched t) → M.step (M.trace s sched t) (sched t) = some s' →
      Q s' ∨ P s' ∧ μ s' ≤ μ (M.trace s sched t))
    (hact : ∀ t, A (sched t) → P (M.trace s sched t) →
      ∃ s', M.step (M.trace s sched t) (sched t) = some s' ∧
        (Q s' ∨ P s' ∧ μ s' < μ (M.trace s sched t)))
    (hfair : Fair A sched) : M.LeadsTo s sched P Q := by
  refine of_measure μ fun n => of_fair (A := A) (fun t s' ht hs => ?_) (fun t hA ht => ?_) hfair
  · obtain ⟨hP, rfl⟩ := ht
    rcases hstep t s' hP hs with hQ | ⟨hP', hle⟩
    · exact .inr (.inl hQ)
    · rcases hle.lt_or_eq with hlt | he
      · exact .inr (.inr ⟨hP', hlt⟩)
      · exact .inl ⟨hP', he⟩
  · obtain ⟨hP, rfl⟩ := ht
    exact hact t hA hP

end LeadsTo

/-! ## Queues -/

/-- **Everything is delivered.** The elements that have come in are `total`, those that have gone
out `out`, its first part. If whenever something is left the next one goes out in the end, then
every element goes out, as the `k`th if it came in as the `k`th. -/
theorem delivers {ε : Type w} {total out : σ → List ε}
    (hout : ∀ t, out (M.trace s sched t) <+: total (M.trace s sched t))
    (hgrows : ∀ t t', t ≤ t' → total (M.trace s sched t) <+: total (M.trace s sched t'))
    (hserved : ∀ n, M.LeadsTo s sched (fun x => (out x).length = n ∧ n < (total x).length)
      fun x => n < (out x).length)
    {t k : ℕ} {x : ε} (hx : (total (M.trace s sched t))[k]? = some x) :
    ∃ t' ≥ t, (out (M.trace s sched t'))[k]? = some x := by
  have hk : k < (total (M.trace s sched t)).length := (List.getElem?_eq_some_iff.mp hx).1
  have hlength : ∀ {t'}, t ≤ t' → k < (total (M.trace s sched t')).length := fun h =>
    hk.trans_le (hgrows t _ h).length_le
  -- the number of elements still to go out before the `k`th has gone
  have hgoes : ∀ n t₁, t ≤ t₁ → k + 1 - (out (M.trace s sched t₁)).length = n →
      ∃ t' ≥ t, k < (out (M.trace s sched t')).length := by
    intro n
    induction n using Nat.strongRecOn with
    | _ n ih =>
      rintro t₁ h₁ rfl
      by_cases hlt : k < (out (M.trace s sched t₁)).length
      · exact ⟨t₁, h₁, hlt⟩
      · have hleft : (out (M.trace s sched t₁)).length < (total (M.trace s sched t₁)).length :=
          (not_lt.mp hlt).trans_lt (hlength h₁)
        obtain ⟨t₂, h₂, hmore⟩ := hserved _ t₁ ⟨rfl, hleft⟩
        exact ih _ (by omega) t₂ (le_trans h₁ h₂) rfl
  obtain ⟨t', h', hlt⟩ := hgoes _ t le_rfl rfl
  refine ⟨t', h', ?_⟩
  have htotal : (total (M.trace s sched t'))[k]? = some x :=
    (List.prefix_iff_getElem?.mp (hgrows t t' h') k hk).trans (by
      rw [← List.getElem?_eq_getElem, hx])
  rw [List.getElem?_eq_getElem hlt, ← htotal]
  exact (List.prefix_iff_getElem?.mp (hout t') k hlt).symm

end Machine

end Lib
