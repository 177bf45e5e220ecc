import Mathlib.Logic.Basic

/-!
# Refinement up to errors

Of two fallible computations the second one refines the first one if it succeeds wherever the first
one does, with a related value, or fails there with an error that is permitted for the value of the
first one. The relation is kept by sequential composition, so that two programs of one shape are
compared step by step. `Strict` permits no error.
-/

namespace Lib

variable {ε α β γ δ : Type}

/-- Where `x` succeeds, `y` succeeds with a related value, or fails with a permitted error. -/
def Refines (E : α → ε → Prop) (R : α → β → Prop) (x : Except ε α) (y : Except ε β) : Prop :=
  ∀ a, x = .ok a → (∃ b, y = .ok b ∧ R a b) ∨ ∃ e, y = .error e ∧ E a e

/-- Where `x` succeeds, `y` succeeds with a related value. -/
abbrev Strict (R : α → β → Prop) (x : Except ε α) (y : Except ε β) : Prop :=
  Refines (fun _ _ => False) R x y

namespace Refines

variable {E E' : α → ε → Prop} {F : γ → ε → Prop} {R R' : α → β → Prop} {S : γ → δ → Prop}
  {x : Except ε α} {y : Except ε β}

theorem ok {a : α} {b : β} (h : R a b) : Refines E R (.ok a) (.ok b) := by
  rintro a' ⟨⟩
  exact .inl ⟨b, rfl, h⟩

/-- Nothing is asked where the first one fails. -/
theorem of_error (e : ε) : Refines E R (.error e) y := by
  rintro a ⟨⟩

theorem permitted {e : ε} (h : ∀ a, x = .ok a → E a e) : Refines E R x (.error e) :=
  fun a ha => .inr ⟨e, rfl, h a ha⟩

/-- **Sequential composition.** What is permitted at first has to be permitted in the end. -/
theorem bind {f : α → Except ε γ} {g : β → Except ε δ} (h : Refines E R x y)
    (hE : ∀ a c e, f a = .ok c → E a e → F c e)
    (hf : ∀ a b, R a b → Refines F S (f a) (g b)) : Refines F S (x >>= f) (y >>= g) := by
  intro c hc
  cases x with
  | error e => cases hc
  | ok a =>
    obtain ⟨b, rfl, hr⟩ | ⟨e, rfl, he⟩ := h a rfl
    · exact hf a b hr c hc
    · exact .inr ⟨e, rfl, hE a c e hc he⟩

/-- A first step that permits no error. -/
theorem andThen {f : α → Except ε γ} {g : β → Except ε δ} (h : Strict R x y)
    (hf : ∀ a b, R a b → Refines F S (f a) (g b)) : Refines F S (x >>= f) (y >>= g) :=
  h.bind (fun _ _ _ _ => False.elim) hf

theorem map {f : α → γ} {g : β → δ} (h : Refines E R x y) (hE : ∀ a e, E a e → F (f a) e)
    (hf : ∀ a b, R a b → S (f a) (g b)) : Refines F S (x.map f) (y.map g) := by
  intro c hc
  cases x with
  | error e => cases hc
  | ok a =>
    obtain ⟨b, rfl, hr⟩ | ⟨e, rfl, he⟩ := h a rfl
    · cases hc
      exact .inl ⟨g b, rfl, hf a b hr⟩
    · cases hc
      exact .inr ⟨e, rfl, hE a e he⟩

theorem map_right {S : α → δ → Prop} {g : β → δ} (h : Refines E R x y)
    (hg : ∀ a b, R a b → S a (g b)) : Refines E S x (y.map g) := by
  intro a ha
  obtain ⟨b, rfl, hr⟩ | ⟨e, rfl, he⟩ := h a ha
  · exact .inl ⟨g b, rfl, hg a b hr⟩
  · exact .inr ⟨e, rfl, he⟩

/-- The value is one that the first one gives. -/
theorem given (h : Refines E R x y) : Refines E (fun a b => x = .ok a ∧ R a b) x y := by
  intro a ha
  obtain ⟨b, hb, hr⟩ | he := h a ha
  · exact .inl ⟨b, hb, ha, hr⟩
  · exact .inr he

theorem refl (x : Except ε α) : Refines E Eq x x := fun a ha => .inl ⟨a, ha, rfl⟩

/-- More errors are permitted, and the values are related less closely. -/
theorem imp (h : Refines E R x y) (hE : ∀ a e, E a e → E' a e) (hR : ∀ a b, R a b → R' a b) :
    Refines E' R' x y := by
  intro a ha
  obtain ⟨b, hb, hr⟩ | ⟨e, he, hp⟩ := h a ha
  · exact .inl ⟨b, hb, hR a b hr⟩
  · exact .inr ⟨e, he, hE a e hp⟩

end Refines

theorem Strict.exists_ok {R : α → β → Prop} {x : Except ε α} {y : Except ε β} (h : Strict R x y)
    {a : α} (ha : x = .ok a) : ∃ b, y = .ok b ∧ R a b :=
  (h a ha).resolve_right fun ⟨_, _, he⟩ => he

/-- All errors are permitted ones. -/
def FailsOnly (E : ε → Prop) (y : Except ε β) : Prop := ∀ e, y = .error e → E e

section FailsOnly

variable {E : ε → Prop} {F : α → ε → Prop} {R : α → γ → Prop} {x : Except ε α} {y : Except ε β}

theorem FailsOnly.ok (b : β) : FailsOnly E (.ok b) := by
  rintro e ⟨⟩

theorem FailsOnly.error {e : ε} (h : E e) : FailsOnly E (.error e : Except ε β) := by
  rintro e' ⟨⟩
  exact h

theorem FailsOnly.bind {g : β → Except ε γ} (h : FailsOnly E y)
    (hg : ∀ b, y = .ok b → FailsOnly E (g b)) : FailsOnly E (y >>= g) := by
  cases y with
  | error e => exact .error (h e rfl)
  | ok b => exact hg b rfl

/-- A step that only the second one takes. -/
theorem Refines.after {g : β → Except ε γ} (h : FailsOnly E y)
    (hE : ∀ a e, x = .ok a → E e → F a e)
    (hg : ∀ b, y = .ok b → Refines F R x (g b)) : Refines F R x (y >>= g) := by
  cases y with
  | error e => exact .permitted fun a ha => hE a e ha (h e rfl)
  | ok b => exact hg b rfl

end FailsOnly

end Lib
