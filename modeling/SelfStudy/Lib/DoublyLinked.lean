import Mathlib.Data.List.Nodup
import Mathlib.Logic.Function.Basic
import Mathlib.Tactic.Common

/-!
# Doubly linked lists

The two link fields of a heap of nodes are functions `back` and `fwd` from addresses to addresses.
`Seg back fwd f l q` says that the nodes of `l` are linked both ways in the order of `l`, that the
forward link of the first one is `f` and that the back link of the last one is `q`.

The two edits of such a list are `Seg.push` (a new first node) and `Seg.unlink` (a node anywhere in
it); both describe the new links by what they are at each address, whatever statements wrote them.
-/

namespace Lib

universe u

variable {α : Type u}

/-- `l` is linked both ways, from the forward link `f` of its first node to the back link `q` of
its last one. -/
def Seg (back fwd : α → Option α) : Option α → List α → Option α → Prop
  | _, [], _ => True
  | f, a :: l, q => fwd a = f ∧ back a = l.head?.or q ∧ Seg back fwd (some a) l q

namespace Seg

variable {back fwd back' fwd' : α → Option α} {f f' q q' : Option α} {l l₁ l₂ : List α} {a x : α}

@[simp] theorem nil : Seg back fwd f [] q := trivial

theorem cons_iff : Seg back fwd f (a :: l) q ↔
    fwd a = f ∧ back a = l.head?.or q ∧ Seg back fwd (some a) l q := Iff.rfl

/-- A segment splits where its list does: each part ends at the first node of the other. -/
theorem append_iff : Seg back fwd f (l₁ ++ l₂) q ↔
    Seg back fwd f l₁ (l₂.head?.or q) ∧ Seg back fwd (l₁.getLast?.or f) l₂ q := by
  induction l₁ generalizing f with
  | nil => simp
  | cons a l ih =>
    rw [List.cons_append, cons_iff, cons_iff, ih, List.head?_append, Option.or_assoc, and_assoc,
      and_assoc]
    cases l <;> simp [List.getLast?_cons]

/-- A segment depends on the links of its own nodes only. -/
theorem congr (hb : ∀ a ∈ l, back' a = back a) (hf : ∀ a ∈ l, fwd' a = fwd a)
    (h : Seg back fwd f l q) : Seg back' fwd' f l q := by
  induction l generalizing f with
  | nil => trivial
  | cons a l ih =>
    obtain ⟨h1, h2, h3⟩ := h
    exact ⟨(hf a (by simp)).trans h1, (hb a (by simp)).trans h2,
      ih (fun b hb' => hb b (by simp [hb'])) (fun b hb' => hf b (by simp [hb'])) h3⟩

/-- Redirecting the forward link of the first node. -/
theorem rehead (hn : l.Nodup) (hb : ∀ a ∈ l, back' a = back a)
    (hf : ∀ a ∈ l, l.head? ≠ some a → fwd' a = fwd a) (hx : ∀ a, l.head? = some a → fwd' a = f')
    (h : Seg back fwd f l q) : Seg back' fwd' f' l q := by
  cases l with
  | nil => trivial
  | cons a l =>
    obtain ⟨-, h2, h3⟩ := h
    have hna := (List.nodup_cons.mp hn).1
    refine ⟨hx a rfl, (hb a (by simp)).trans h2, congr (fun b hb' => hb b (by simp [hb']))
      (fun b hb' => hf b (by simp [hb']) ?_) h3⟩
    rintro ⟨⟩
    exact hna hb'

/-- Redirecting the back link of the last node. -/
theorem relast (hn : l.Nodup)
    (hb : ∀ a ∈ l, l.getLast? ≠ some a → back' a = back a)
    (hx : ∀ a, l.getLast? = some a → back' a = q') (hf : ∀ a ∈ l, fwd' a = fwd a)
    (h : Seg back fwd f l q) : Seg back' fwd' f l q' := by
  induction l generalizing f with
  | nil => trivial
  | cons a l ih =>
    obtain ⟨h1, h2, h3⟩ := h
    obtain ⟨hna, hn'⟩ := List.nodup_cons.mp hn
    cases l with
    | nil => exact ⟨(hf a (by simp)).trans h1, hx a rfl, trivial⟩
    | cons b l =>
      have hlast : (a :: b :: l).getLast? = (b :: l).getLast? := by simp [List.getLast?_cons]
      rw [hlast] at hb hx
      refine ⟨(hf a (by simp)).trans h1, (hb a (by simp) fun e => ?_).trans h2,
        ih hn' (fun c hc => hb c (by simp [hc])) hx (fun c hc => hf c (by simp [hc])) h3⟩
      exact hna (List.mem_of_getLast? e)

/-- **Push.** A fresh node in front of a list whose first node now points forward to it. -/
theorem push (hn : l.Nodup) (hbx : back' x = l.head?) (hfx : fwd' x = none)
    (hb : ∀ a ∈ l, back' a = back a) (hf : ∀ a ∈ l, l.head? ≠ some a → fwd' a = fwd a)
    (hh : ∀ a, l.head? = some a → fwd' a = some x) (h : Seg back fwd none l none) :
    Seg back' fwd' none (x :: l) none :=
  ⟨hfx, by rw [hbx, Option.or_none], h.rehead hn hb hf hh⟩

/-- The links of a node inside a list. -/
theorem links (h : Seg back fwd none (l₁ ++ x :: l₂) none) :
    back x = l₂.head? ∧ fwd x = l₁.getLast? := by
  obtain ⟨-, h1, h2, -⟩ := append_iff.mp h
  simp at h1 h2
  exact ⟨h2, h1⟩

/-- **Unlink.** Both neighbours of a node now point past it. -/
theorem unlink (hn : (l₁ ++ x :: l₂).Nodup)
    (hb : ∀ a ∈ l₁ ++ l₂, l₁.getLast? ≠ some a → back' a = back a)
    (hb' : ∀ a, l₁.getLast? = some a → back' a = back x)
    (hf : ∀ a ∈ l₁ ++ l₂, l₂.head? ≠ some a → fwd' a = fwd a)
    (hf' : ∀ a, l₂.head? = some a → fwd' a = fwd x)
    (h : Seg back fwd none (l₁ ++ x :: l₂) none) :
    Seg back' fwd' none (l₁ ++ l₂) none := by
  obtain ⟨hbx, hfx⟩ := links h
  obtain ⟨hn₁, hn₂, hdis⟩ := List.nodup_append.mp hn
  obtain ⟨-, hn₂⟩ := List.nodup_cons.mp hn₂
  obtain ⟨h₁, -, -, h₂⟩ := append_iff.mp h
  refine append_iff.mpr ⟨?_, ?_⟩
  · refine h₁.relast hn₁ (fun a ha => hb a (by simp [ha])) (fun a ha => ?_) fun a ha => ?_
    · rw [hb' a ha, hbx, Option.or_none]
    · refine hf a (by simp [ha]) fun e => hdis a ha a ?_ rfl
      exact List.mem_cons_of_mem _ (List.mem_of_mem_head? e)
  · refine h₂.rehead hn₂ (fun a ha => ?_) (fun a ha => hf a (by simp [ha])) fun a ha => ?_
    · refine hb a (by simp [ha]) fun e => hdis a (List.mem_of_getLast? e) a ?_ rfl
      exact List.mem_cons_of_mem _ ha
    · rw [hf' a ha, hfx, Option.or_none]

end Seg

end Lib
