import SelfStudy.Lib.Machine

/-!
# The calls of a consumer

A thread of a machine that takes elements out of a queue, one with each call of a function, while
others work on the queue. A call is a piece of a run: it begins with the step that takes the thread
out of the states where it is `idle` and ends with the one that takes it back there.

`Consumer.Sound` are the facts about single steps of which this makes facts about calls. A call may
give nothing only for a reason that can be seen at some instant of it (`nothing_sometime`); alone
with the queue it takes the oldest element (`alone`), and calls that follow each other take them all
(`drains`).
-/

namespace Lib

universe u v w

namespace Machine

variable {σ : Type u} {α : Type v} (M : Machine σ α)

/-- `P` holds in some state that the run of the actions from `s` goes through. -/
def Sometime (P : σ → Prop) : σ → List α → Prop
  | s, [] => P s
  | s, a :: as => P s ∨ ∃ s', M.step s a = some s' ∧ Sometime P s' as

/-- The actions take the thread from inside a call to the end of the call. -/
inductive Returns (idle : σ → Prop) : σ → List α → σ → Prop
  | last {s t : σ} {a : α} (hs : ¬ idle s) (h : M.step s a = some t) (ht : idle t) :
    Returns idle s [a] t
  | step {s r t : σ} {a : α} {as : List α} (hs : ¬ idle s) (h : M.step s a = some r)
    (hr : Returns idle r as t) : Returns idle s (a :: as) t

/-- The actions are one call. -/
inductive Call (idle : σ → Prop) : σ → List α → σ → Prop
  | mk {s r t : σ} {a : α} {as : List α} (hs : idle s) (h : M.step s a = some r)
    (hr : M.Returns idle r as t) : Call idle s (a :: as) t

variable {M} {idle : σ → Prop} {s t : σ} {as : List α}

theorem Sometime.head {P : σ → Prop} (h : P s) : M.Sometime P s as := by
  cases as with
  | nil => exact h
  | cons a as => exact .inl h

theorem Returns.not_idle (h : M.Returns idle s as t) : ¬ idle s := by
  cases h with
  | last hs => exact hs
  | step hs => exact hs

theorem Returns.finish (h : M.Returns idle s as t) : idle t := by
  induction h with
  | last _ _ ht => exact ht
  | step _ _ _ ih => exact ih

theorem Returns.run (h : M.Returns idle s as t) : M.run s as = some t := by
  induction h with
  | last _ h => exact run_cons h []
  | step _ h _ ih => rw [run_cons h, ih]

theorem Call.run (h : M.Call idle s as t) : M.run s as = some t := by
  obtain ⟨-, h, hr⟩ := h
  rw [run_cons h, hr.run]

theorem Call.finish (h : M.Call idle s as t) : idle t := by
  obtain ⟨-, -, hr⟩ := h
  exact hr.finish

/-- **Induction over a call.** What is known inside a call is kept by its steps, or `Q` is met. -/
theorem Returns.sometime {K Q R : σ → Prop}
    (hnext : ∀ r a r', K r → ¬ Q r → M.step r a = some r' → ¬ idle r' → ¬ Q r' → K r')
    (hlast : ∀ r a t, K r → ¬ Q r → M.step r a = some t → idle t → R t)
    (h : M.Returns idle s as t) (hK : K s) : M.Sometime Q s as ∨ R t := by
  induction h with
  | @last s t a _ h ht =>
    by_cases hQ : Q s
    · exact .inl (.inl hQ)
    · exact .inr (hlast s a t hK hQ h ht)
  | @step s r t a as _ h hr ih =>
    by_cases hQ : Q s
    · exact .inl (.inl hQ)
    by_cases hQ' : Q r
    · exact .inl (.inr ⟨r, h, .head hQ'⟩)
    · exact (ih (hnext s a r hK hQ h hr.not_idle hQ')).imp_left fun hsome => .inr ⟨r, h, hsome⟩

/-- A thread that comes closer to the end of its call with each step of its own ends it. -/
theorem exists_returns {I : σ → Prop} {a : α} (μ : σ → ℕ)
    (hstep : ∀ s, I s → ¬ idle s → ∃ s', M.step s a = some s' ∧ I s' ∧ (idle s' ∨ μ s' < μ s)) :
    ∀ s, I s → ¬ idle s → ∃ n t, M.Returns idle s (List.replicate n a) t ∧ I t := by
  intro s
  induction hn : μ s using Nat.strongRecOn generalizing s with
  | _ n ih =>
    intro hI hs
    obtain ⟨s', h, hI', hor⟩ := hstep s hI hs
    by_cases hs' : idle s'
    · exact ⟨1, s', .last hs h hs', hI'⟩
    · obtain ⟨n, t, hr, ht⟩ := ih (μ s') (hn ▸ hor.resolve_left hs') s' rfl hI' hs'
      exact ⟨n + 1, t, .step hs h hr, ht⟩

end Machine

open Machine

/-- How to look at a machine with a consumer. -/
structure Consumer (σ : Type u) (α : Type v) (ε : Type w) where
  /-- The step of the consumer. -/
  act : α
  idle : σ → Prop
  /-- The elements in the queue, the oldest first. -/
  held : σ → List ε
  returned : σ → List ε
  /-- Somebody is in the middle of putting an element into the queue. -/
  inFlight : σ → Prop
  /-- Nobody but the consumer is at work. -/
  quiet : σ → Prop
  /-- What the consumer knows inside a call. -/
  knows : σ → Prop
  /-- A bound on the steps to the end of the call. -/
  rank : σ → ℕ

namespace Consumer

variable {σ : Type u} {α : Type v} {ε : Type w} {M : Machine σ α} {D : Consumer σ α ε}

def Excused (D : Consumer σ α ε) (s : σ) : Prop := D.held s = [] ∨ D.inFlight s

structure Sound (M : Machine σ α) (D : Consumer σ α ε) : Prop where
  enabled : ∀ s, M.Reachable s → ∃ t, M.step s D.act = some t
  leaves : ∀ s t, D.idle s → M.step s D.act = some t → ¬ D.idle t
  keeps : ∀ s a t, M.step s a = some t → ¬ D.idle t → D.returned t = D.returned s
  first : ∀ s a t, M.Reachable s → D.idle s → M.step s a = some t → ¬ D.idle t → D.knows t
  next : ∀ s a t, M.Reachable s → ¬ D.idle s → D.knows s → ¬ D.Excused s → M.step s a = some t →
    ¬ D.idle t → ¬ D.Excused t → D.knows t
  last : ∀ s a t, M.Reachable s → ¬ D.idle s → D.knows s → M.step s a = some t → D.idle t →
    D.Excused s ∧ D.returned t = D.returned s ∨
      ∃ x, D.held s = x :: D.held t ∧ D.returned t = D.returned s ++ [x]
  quiet_step : ∀ s t, M.Reachable s → D.quiet s → M.step s D.act = some t →
    D.quiet t ∧ D.returned t ++ D.held t = D.returned s ++ D.held s
  quiet_not : ∀ s, D.quiet s → ¬ D.inFlight s
  grows : ∀ s t, M.step s D.act = some t → D.returned s <+: D.returned t
  rank : ∀ s t, M.Reachable s → ¬ D.idle s → M.step s D.act = some t →
    D.idle t ∨ D.rank t < D.rank s

variable {s t : σ} {as : List α}

/-- **Nothing for a reason.** A call that gives nothing goes through a state in which the queue is empty
or somebody is in the middle of putting an element in. -/
theorem Sound.nothing_sometime (h : D.Sound M) (hs : M.Reachable s) (hc : M.Call D.idle s as t)
    (hret : D.returned t = D.returned s) : M.Sometime D.Excused s as := by
  obtain ⟨hidle, hstep, hr⟩ := hc
  rename_i r a as
  have hK := h.first s a r hs hidle hstep hr.not_idle
  have hrr := h.keeps s a r hstep hr.not_idle
  have hrule := Returns.sometime (Q := D.Excused) (R := fun t => D.returned t ≠ D.returned s)
    (K := fun r => M.Reachable r ∧ ¬ D.idle r ∧ D.knows r ∧ D.returned r = D.returned s)
    (fun r a r' hr hQ hstep hidle' hQ' => ?_) (fun r a t hr hQ hstep hidle' => ?_) hr
    ⟨hs.step trivial hstep, hr.not_idle, hK, hrr⟩
  · exact hrule.elim (fun hsome => .inr ⟨r, hstep, hsome⟩) fun hne => absurd hret hne
  · obtain ⟨hreach, hni, hk, hret⟩ := hr
    have hk' := h.next r a r' hreach hni hk hQ hstep hidle' hQ'
    exact ⟨hreach.step trivial hstep, hidle', hk', (h.keeps r a r' hstep hidle').trans hret⟩
  · obtain ⟨hreach, hni, hk, hret⟩ := hr
    rcases h.last r a t hreach hni hk hstep hidle' with ⟨hex, -⟩ | ⟨x, -, hx⟩
    · exact absurd hex hQ
    · rw [hx, hret]
      simp

/-- A piece of a run in which only the consumer moves. -/
theorem Sound.returns_quiet (h : D.Sound M) (hr : M.Returns D.idle s as t) (hs : M.Reachable s)
    (hq : D.quiet s) (has : ∀ a ∈ as, a = D.act) :
    M.Reachable t ∧ D.quiet t ∧ D.returned t ++ D.held t = D.returned s ++ D.held s ∧
      D.returned s <+: D.returned t := by
  induction hr with
  | last hidle hstep ht =>
    obtain rfl := has _ List.mem_cons_self
    obtain ⟨hq', htotal⟩ := h.quiet_step _ _ hs hq hstep
    exact ⟨hs.step trivial hstep, hq', htotal, h.grows _ _ hstep⟩
  | step hidle hstep hr ih =>
    obtain rfl := has _ List.mem_cons_self
    obtain ⟨hq', htotal⟩ := h.quiet_step _ _ hs hq hstep
    obtain ⟨hreach, hqt, htotal', hgrows⟩ :=
      ih (hs.step trivial hstep) hq' fun a ha => has a (List.mem_cons_of_mem _ ha)
    exact ⟨hreach, hqt, htotal'.trans htotal, (h.grows _ _ hstep).trans hgrows⟩

theorem Sound.call_quiet (h : D.Sound M) (hc : M.Call D.idle s as t) (hs : M.Reachable s)
    (hq : D.quiet s) (has : ∀ a ∈ as, a = D.act) :
    M.Reachable t ∧ D.quiet t ∧ D.returned t ++ D.held t = D.returned s ++ D.held s ∧
      D.returned s <+: D.returned t := by
  obtain ⟨hidle, hstep, hr⟩ := hc
  obtain rfl := has _ List.mem_cons_self
  obtain ⟨hq', htotal⟩ := h.quiet_step _ _ hs hq hstep
  obtain ⟨hreach, hqt, htotal', hgrows⟩ := h.returns_quiet hr (hs.step trivial hstep) hq'
    fun a ha => has a (List.mem_cons_of_mem _ ha)
  exact ⟨hreach, hqt, htotal'.trans htotal, (h.grows _ _ hstep).trans hgrows⟩

theorem Sound.returns_alone (h : D.Sound M) (hr : M.Returns D.idle s as t) (hs : M.Reachable s)
    (hq : D.quiet s) (hk : D.knows s) (has : ∀ a ∈ as, a = D.act) {x : ε} {xs : List ε}
    (hx : D.held s = x :: xs) : D.returned t = D.returned s ++ [x] ∧ D.held t = xs := by
  have hexcused : ∀ r, D.quiet r → D.held r = x :: xs → ¬ D.Excused r := by
    rintro r hq hx (hnil | hin)
    · rw [hx] at hnil
      cases hnil
    · exact h.quiet_not r hq hin
  induction hr with
  | last hidle hstep ht =>
    rcases h.last _ _ _ hs hidle hk hstep ht with ⟨hex, -⟩ | ⟨y, hy, hret⟩
    · exact absurd hex (hexcused _ hq hx)
    · rw [hx] at hy
      obtain ⟨rfl, rfl⟩ := List.cons.inj hy
      exact ⟨hret, rfl⟩
  | step hidle hstep hr ih =>
    obtain rfl := has _ List.mem_cons_self
    obtain ⟨hq', htotal⟩ := h.quiet_step _ _ hs hq hstep
    have hkeep := h.keeps _ _ _ hstep hr.not_idle
    rw [hkeep] at htotal
    have hx' := (List.append_cancel_left htotal).trans hx
    have hk' := h.next _ _ _ hs hidle hk (hexcused _ hq hx) hstep hr.not_idle
      (hexcused _ hq' hx')
    obtain ⟨hret, hheld⟩ := ih (hs.step trivial hstep) hq' hk'
      (fun a ha => has a (List.mem_cons_of_mem _ ha)) hx'
    exact ⟨hkeep ▸ hret, hheld⟩

/-- **Alone with the queue** a call takes the oldest element. -/
theorem Sound.alone (h : D.Sound M) (hc : M.Call D.idle s as t) (hs : M.Reachable s)
    (hq : D.quiet s) (has : ∀ a ∈ as, a = D.act) {x : ε} {xs : List ε} (hx : D.held s = x :: xs) :
    D.returned t = D.returned s ++ [x] ∧ D.held t = xs := by
  obtain ⟨hidle, hstep, hr⟩ := hc
  obtain rfl := has _ List.mem_cons_self
  obtain ⟨hq', htotal⟩ := h.quiet_step _ _ hs hq hstep
  have hkeep := h.keeps _ _ _ hstep hr.not_idle
  rw [hkeep] at htotal
  obtain ⟨hret, hheld⟩ := h.returns_alone hr (hs.step trivial hstep) hq'
    (h.first _ _ _ hs hidle hstep hr.not_idle) (fun a ha => has a (List.mem_cons_of_mem _ ha))
    ((List.append_cancel_left htotal).trans hx)
  exact ⟨hkeep ▸ hret, hheld⟩

/-- Every call comes to its end when the consumer goes on. -/
theorem Sound.exists_call (h : D.Sound M) (hs : M.Reachable s) (hidle : D.idle s) :
    ∃ n t, M.Call D.idle s (List.replicate n D.act) t := by
  obtain ⟨r, hr⟩ := h.enabled s hs
  obtain ⟨n, t, ht, -⟩ := Machine.exists_returns (I := M.Reachable) (a := D.act) D.rank
    (fun s hs hni => by
      obtain ⟨r, hr⟩ := h.enabled s hs
      exact ⟨r, hr, hs.step trivial hr, h.rank s r hs hni hr⟩)
    r (hs.step trivial hr) (h.leaves s r hidle hr)
  exact ⟨n + 1, t, .mk hidle hr ht⟩

/-! ## Taking everything -/

/-- Call after call, until one gives nothing. -/
inductive Drains (M : Machine σ α) (D : Consumer σ α ε) : σ → List α → σ → Prop
  | stop {s t : σ} {as : List α} (hc : M.Call D.idle s as t) (hr : D.returned t = D.returned s) :
    Drains M D s as t
  | more {s r t : σ} {as bs : List α} (hc : M.Call D.idle s as r) (hr : D.returned r ≠ D.returned s)
    (hd : Drains M D r bs t) : Drains M D s (as ++ bs) t

/-- **Alone with the queue** the consumer takes everything before a call gives nothing. -/
theorem Sound.drains (h : D.Sound M) (hd : Drains M D s as t) (hs : M.Reachable s)
    (hq : D.quiet s) (has : ∀ a ∈ as, a = D.act) :
    D.held t = [] ∧ D.returned t = D.returned s ++ D.held s := by
  induction hd with
  | @stop s t as hc hr =>
    obtain ⟨-, -, htotal, -⟩ := h.call_quiet hc hs hq has
    cases hx : D.held s with
    | nil =>
      rw [hr, hx] at htotal
      exact ⟨List.append_cancel_left htotal, by rw [hr, List.append_nil]⟩
    | cons x xs =>
      obtain ⟨hgive, -⟩ := h.alone hc hs hq has hx
      rw [hr] at hgive
      simp at hgive
  | @more s r t as bs hc hr hd ih =>
    have has' : ∀ a ∈ as, a = D.act := fun a ha => has a (List.mem_append_left _ ha)
    obtain ⟨hreach, hq', htotal, -⟩ := h.call_quiet hc hs hq has'
    obtain ⟨hheld, hret⟩ := ih hreach hq' fun a ha => has a (List.mem_append_right _ ha)
    exact ⟨hheld, hret.trans htotal⟩

theorem Sound.exists_drains (h : D.Sound M) (hs : M.Reachable s) (hidle : D.idle s)
    (hq : D.quiet s) : ∃ as t, Drains M D s as t ∧ ∀ a ∈ as, a = D.act := by
  induction hn : (D.held s).length generalizing s with
  | zero =>
    obtain ⟨n, t, hc⟩ := h.exists_call hs hidle
    have has : ∀ a ∈ List.replicate n D.act, a = D.act := fun a ha => List.eq_of_mem_replicate ha
    refine ⟨_, t, .stop hc ?_, has⟩
    obtain ⟨-, -, htotal, hgrows⟩ := h.call_quiet hc hs hq has
    rw [List.eq_nil_of_length_eq_zero hn, List.append_nil] at htotal
    exact (hgrows.eq_of_length_le (by rw [← htotal, List.length_append]; omega)).symm
  | succ k ih =>
    obtain ⟨n, r, hc⟩ := h.exists_call hs hidle
    have has : ∀ a ∈ List.replicate n D.act, a = D.act := fun a ha => List.eq_of_mem_replicate ha
    obtain ⟨hreach, hq', -, -⟩ := h.call_quiet hc hs hq has
    obtain ⟨x, xs, hx⟩ := List.exists_cons_of_length_eq_add_one hn
    obtain ⟨hret, hheld⟩ := h.alone hc hs hq has hx
    obtain ⟨bs, t, hd, hbs⟩ := ih hreach hc.finish hq' (by
      rw [hx, List.length_cons] at hn
      rw [hheld]
      omega)
    refine ⟨_, t, .more hc (by rw [hret]; simp) hd, fun a ha => ?_⟩
    exact (List.mem_append.mp ha).elim (has a) (hbs a)

/-- What the calls of a consumer do. -/
structure Justified (M : Machine σ α) (D : Consumer σ α ε) : Prop where
  /-- A call that gives nothing has met an empty queue, or somebody putting an element in. -/
  nothing : ∀ s as t, M.Reachable s → M.Call D.idle s as t → D.returned t = D.returned s →
    M.Sometime (fun r => D.held r = [] ∨ D.inFlight r) s as
  /-- With nobody else at work a call gives the oldest element if there is one. -/
  oldest : ∀ s as t x xs, M.Reachable s → D.quiet s → M.Call D.idle s as t →
    (∀ a ∈ as, a = D.act) → D.held s = x :: xs →
    D.returned t = D.returned s ++ [x] ∧ D.held t = xs
  /-- Then call after call gives all elements before one gives nothing. -/
  all : ∀ s as t, M.Reachable s → D.quiet s → Drains M D s as t → (∀ a ∈ as, a = D.act) →
    D.held t = [] ∧ D.returned t = D.returned s ++ D.held s
  /-- Such calls come to their end. -/
  ends : ∀ s, M.Reachable s → D.idle s →
    (∃ n t, M.Call D.idle s (List.replicate n D.act) t) ∧
      (D.quiet s → ∃ as t, Drains M D s as t ∧ ∀ a ∈ as, a = D.act)

theorem Sound.justified (h : D.Sound M) : D.Justified M where
  nothing _ _ _ hs hc hret := h.nothing_sometime hs hc hret
  oldest _ _ _ _ _ hs hq hc has hx := h.alone hc hs hq has hx
  all _ _ _ hs hq hd has := h.drains hd hs hq has
  ends _ hs hidle := ⟨h.exists_call hs hidle, fun hq => h.exists_drains hs hidle hq⟩

end Consumer

end Lib
