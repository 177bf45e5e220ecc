import Mathlib.Tactic.Common

/-!
# Guarded transition systems

A program is a partial step function: `step s a` is the state after the action `a`, and `none`
when `a` is not enabled in `s`. The action carries the scheduling choice and every answer of the
environment, so a run is a list of actions and can be evaluated.

`ReachableIf C` are the states of the runs whose steps all meet `C`; `Reachable` puts no condition
on the steps. `ReachableIf.invariant` is the induction over a run, `record_invariant` the same beside
what an observer writes down of it, and `exists_leads_of_measure` the scheduler argument: where
every state short of a goal has a step down a measure, the goal can be reached.
-/

namespace Lib

universe u v

/-- A transition system with initial states and a guarded step. -/
structure Machine (σ : Type u) (α : Type v) where
  init : σ → Prop
  step : σ → α → Option σ

namespace Machine

variable {σ : Type u} {α : Type v} (M : Machine σ α)

/-- Perform the actions in turn; `none` if one of them is not enabled. -/
def run (s : σ) : List α → Option σ
  | [] => some s
  | a :: as => (M.step s a).bind fun s' => run s' as

/-- The states of the runs all of whose steps meet `C`. -/
inductive ReachableIf (C : σ → α → Prop) : σ → Prop
  | init {s : σ} (h : M.init s) : ReachableIf C s
  | step {s s' : σ} {a : α} (h : ReachableIf C s) (hC : C s a) (hs : M.step s a = some s') :
      ReachableIf C s'

/-- The states of all runs. -/
abbrev Reachable : σ → Prop := M.ReachableIf fun _ _ => True

/-- `P` holds in every state that the run of the actions from `s` goes through. -/
def Always (P : σ → Prop) : σ → List α → Prop
  | s, [] => P s
  | s, a :: as => P s ∧ ∀ s', M.step s a = some s' → Always P s' as

/-- Every step of the run of the actions from `s` meets `C`. -/
def AllSteps (C : σ → α → Prop) : σ → List α → Prop
  | _, [] => True
  | s, a :: as => ∀ s', M.step s a = some s' → C s a ∧ AllSteps C s' as

/-- What `out` says of the steps of the run of the actions from `s`, up to the first action that is
not enabled. -/
def record {β : Type*} (out : σ → α → Option β) : σ → List α → List β
  | _, [] => []
  | s, a :: as => (M.step s a).elim [] fun s' => (out s a).toList ++ record out s' as

/-- Some run leads from `s` to `t`. -/
def Leads (s t : σ) : Prop := ∃ as, M.run s as = some t

variable {M}

/-! ## Runs -/

@[simp] theorem run_nil (s : σ) : M.run s [] = some s := rfl

theorem run_cons {s s' : σ} {a : α} (h : M.step s a = some s') (as : List α) :
    M.run s (a :: as) = M.run s' as := by
  show (M.step s a).bind _ = _
  rw [h]; rfl

theorem run_append (s : σ) (as bs : List α) :
    M.run s (as ++ bs) = (M.run s as).bind fun t => M.run t bs := by
  induction as generalizing s with
  | nil => rfl
  | cons a as ih =>
    show (M.step s a).bind _ = ((M.step s a).bind _).bind _
    cases M.step s a with
    | none => rfl
    | some s' => exact ih s'

/-! ## Reachable states -/

/-- **Induction over a run.** What holds initially and is kept by every step that meets the
condition holds of every state reached. -/
theorem ReachableIf.invariant {C : σ → α → Prop} {P : σ → Prop} (hinit : ∀ s, M.init s → P s)
    (hstep : ∀ s a s', M.ReachableIf C s → P s → C s a → M.step s a = some s' → P s') {s : σ}
    (h : M.ReachableIf C s) : P s := by
  induction h with
  | init h => exact hinit _ h
  | step h hC hs ih => exact hstep _ _ _ h ih hC hs

/-- A projection that takes steps to steps takes runs to runs. -/
theorem Reachable.map {τ : Type*} {γ : Type*} {N : Machine τ γ} (f : σ → τ) (g : α → γ)
    (hinit : ∀ s, M.init s → N.init (f s))
    (hstep : ∀ s a s', M.step s a = some s' → N.step (f s) (g a) = some (f s')) {s : σ}
    (h : M.Reachable s) : N.Reachable (f s) :=
  h.invariant (P := fun s => N.Reachable (f s)) (fun s hs => .init (hinit s hs))
    fun s a s' _ ih _ hs => ih.step trivial (hstep s a s' hs)

theorem Reachable.run {s t : σ} {as : List α} (hs : M.Reachable s) (h : M.run s as = some t) :
    M.Reachable t := by
  induction as generalizing s with
  | nil => exact Option.some.inj h ▸ hs
  | cons a as ih =>
    obtain ⟨s', hs', h'⟩ := Option.bind_eq_some_iff.mp h
    exact ih (hs.step trivial hs') h'

theorem ReachableIf.run {C : σ → α → Prop} {s t : σ} {as : List α} (hs : M.ReachableIf C s)
    (hC : M.AllSteps C s as) (h : M.run s as = some t) : M.ReachableIf C t := by
  induction as generalizing s with
  | nil => exact Option.some.inj h ▸ hs
  | cons a as ih =>
    obtain ⟨s', hs', h'⟩ := Option.bind_eq_some_iff.mp h
    obtain ⟨hCa, hC'⟩ := hC s' hs'
    exact ih (hs.step hCa hs') hC' h'

theorem Reachable.leads {s t : σ} (hs : M.Reachable s) (h : M.Leads s t) : M.Reachable t :=
  let ⟨_, h⟩ := h
  hs.run h

theorem allSteps_cons {C : σ → α → Prop} {s s' : σ} {a : α} (h : M.step s a = some s')
    (as : List α) : M.AllSteps C s (a :: as) ↔ C s a ∧ M.AllSteps C s' as :=
  ⟨fun hC => hC s' h, fun hC t ht => Option.some.inj (h.symm.trans ht) ▸ hC⟩

/-- A condition on the steps is checked by performing them. -/
instance decidableAllSteps {C : σ → α → Prop} [∀ s a, Decidable (C s a)] :
    ∀ s as, Decidable (M.AllSteps C s as)
  | _, [] => isTrue trivial
  | s, a :: as =>
    match h : M.step s a with
    | none => isTrue fun s' hs' => absurd (h.symm.trans hs') nofun
    | some s' =>
      have := decidableAllSteps (C := C) s' as
      decidable_of_iff (C s a ∧ M.AllSteps C s' as) (allSteps_cons h as).symm

theorem allSteps_of_forall {C : σ → α → Prop} {as : List α} (h : ∀ a ∈ as, ∀ s, C s a) (s : σ) :
    M.AllSteps C s as := by
  induction as generalizing s with
  | nil => trivial
  | cons a as ih =>
    intro s' _
    exact ⟨h a List.mem_cons_self s, ih (fun b hb => h b (List.mem_cons_of_mem a hb)) s'⟩

/-- Where a step keeps the invariant `I` if it meets `C` and breaks `P` if it does not, `P` holds
all along a run exactly if all its steps meet `C`; the run itself may be assumed to meet `A`. -/
theorem always_iff_allSteps_of {I P : σ → Prop} {A C : σ → α → Prop} (hP : ∀ s, I s → P s)
    (hC : ∀ s a s', I s → M.step s a = some s' → A s a → C s a → I s')
    (hN : ∀ s a s', I s → M.step s a = some s' → A s a → P s' → C s a) {s : σ} (hs : I s)
    {as : List α} (hA : M.AllSteps A s as) : M.Always P s as ↔ M.AllSteps C s as := by
  induction as generalizing s with
  | nil => exact iff_of_true (hP s hs) trivial
  | cons a as ih =>
    constructor
    · rintro ⟨-, h⟩ s' hs'
      obtain ⟨hAa, hA'⟩ := hA s' hs'
      have hCa : C s a := by
        refine hN s a s' hs hs' hAa ?_
        cases as with
        | nil => exact h s' hs'
        | cons b as => exact (h s' hs').1
      exact ⟨hCa, (ih (hC s a s' hs hs' hAa hCa) hA').mp (h s' hs')⟩
    · intro h
      refine ⟨hP s hs, fun s' hs' => ?_⟩
      obtain ⟨hAa, hA'⟩ := hA s' hs'
      obtain ⟨hCa, h'⟩ := h s' hs'
      exact (ih (hC s a s' hs hs' hAa hCa) hA').mpr h'

theorem always_iff_allSteps {I P : σ → Prop} {C : σ → α → Prop} (hP : ∀ s, I s → P s)
    (hC : ∀ s a s', I s → M.step s a = some s' → C s a → I s')
    (hN : ∀ s a s', I s → M.step s a = some s' → P s' → C s a) {s : σ} (hs : I s) (as : List α) :
    M.Always P s as ↔ M.AllSteps C s as :=
  always_iff_allSteps_of (A := fun _ _ => True) hP (fun s a s' hI hs' _ => hC s a s' hI hs')
    (fun s a s' hI hs' _ => hN s a s' hI hs') hs (allSteps_of_forall (fun _ _ _ => trivial) s)

/-- **Induction over a record.** What every step keeps of the state and of what has been recorded so
far holds at the end of every run. -/
theorem record_invariant {β : Type*} {out : σ → α → Option β} {P : σ → List β → Prop}
    (hstep : ∀ s a s' l, P s l → M.step s a = some s' → P s' (l ++ (out s a).toList)) {s : σ}
    {l : List β} (h : P s l) (as : List α) : ∃ t, P t (l ++ M.record out s as) := by
  induction as generalizing s l with
  | nil => exact ⟨s, (List.append_nil l).symm ▸ h⟩
  | cons a as ih =>
    rw [record]
    cases hs : M.step s a with
    | none => exact ⟨s, (List.append_nil l).symm ▸ h⟩
    | some s' =>
      obtain ⟨t, ht⟩ := ih (hstep s a s' l h hs)
      rw [List.append_assoc] at ht
      exact ⟨t, ht⟩

/-- The same at the end of a run that performs all its actions. -/
theorem record_run {β : Type*} {out : σ → α → Option β} {P : σ → List β → Prop}
    (hstep : ∀ s a s' l, P s l → M.step s a = some s' → P s' (l ++ (out s a).toList)) {s t : σ}
    {l : List β} {as : List α} (h : P s l) (hr : M.run s as = some t) :
    P t (l ++ M.record out s as) := by
  induction as generalizing s l with
  | nil => exact (List.append_nil l).symm ▸ Option.some.inj hr ▸ h
  | cons a as ih =>
    obtain ⟨s', hs, hr'⟩ := Option.bind_eq_some_iff.mp hr
    rw [record, hs, Option.elim_some, ← List.append_assoc]
    exact ih (hstep s a s' l h hs) hr'

theorem record_append {β : Type*} (out : σ → α → Option β) {s t : σ} {as : List α}
    (hr : M.run s as = some t) (bs : List α) :
    M.record out s (as ++ bs) = M.record out s as ++ M.record out t bs := by
  induction as generalizing s with
  | nil => rw [← Option.some.inj hr]; rfl
  | cons a as ih =>
    obtain ⟨s', hs, hr'⟩ := Option.bind_eq_some_iff.mp hr
    rw [List.cons_append, record, record, hs, Option.elim_some, Option.elim_some, ih hr',
      List.append_assoc]

/-! ## Leading from one state to another -/

theorem Leads.refl (s : σ) : M.Leads s s := ⟨[], rfl⟩

theorem Leads.trans {s t r : σ} (h : M.Leads s t) (h' : M.Leads t r) : M.Leads s r := by
  obtain ⟨as, has⟩ := h
  obtain ⟨bs, hbs⟩ := h'
  exact ⟨as ++ bs, by rw [run_append, has]; exact hbs⟩

theorem Leads.of_step {s t : σ} {a : α} (h : M.step s a = some t) : M.Leads s t :=
  ⟨[a], run_cons h []⟩

/-- **Scheduling towards a goal.** If every state of `I` that is not a goal has a step that stays
in `I` and lowers `μ`, then from every state of `I` some run reaches a goal inside `I`. -/
theorem exists_leads_of_measure {I G : σ → Prop} (μ : σ → ℕ)
    (h : ∀ s, I s → ¬ G s → ∃ a s', M.step s a = some s' ∧ I s' ∧ μ s' < μ s) :
    ∀ s, I s → ∃ t, M.Leads s t ∧ I t ∧ G t := by
  intro s
  induction hn : μ s using Nat.strongRecOn generalizing s with
  | _ n ih =>
    intro hI
    by_cases hG : G s
    · exact ⟨s, .refl s, hI, hG⟩
    · obtain ⟨a, s', hs, hI', hlt⟩ := h s hI hG
      obtain ⟨t, ht, hIt, hGt⟩ := ih (μ s') (hn ▸ hlt) s' rfl hI'
      exact ⟨t, (Leads.of_step hs).trans ht, hIt, hGt⟩

end Machine

end Lib
