import SelfStudy.Threading.ProducerConsumerFifo

/-!
# Cancelling the producer-consumer queue

`Cancel` deletes the pointers in the queue, and `Pop` and `WaitAndPop` hand out nothing once
`_shutdown` is set. `Push` does not look at `_shutdown`: a pointer pushed after `Cancel` stays in the
queue. Without such a push every pointer is delivered or deleted (`settled_iff_noLatePush`).
-/

namespace SelfStudy.Threading

open Lib ProducerConsumer

universe u

variable {T : Type u}

namespace Guarded

/-- Some `Cancel` has returned. -/
def Cancelled (g : Guarded T) : Prop := ∃ i, (i, .cancel) ∈ g.returned

/-- `_shutdown` is set by the `Cancel`s that have returned and one that is about to. -/
def ShutdownBy (g : Guarded T) (o : Option (Pc T)) : Prop :=
  g.shutdown = true ↔ g.Cancelled ∨ o = some .notifyAll ∨ o = some (.unlock .cancel)

/-- With `_shutdown` set the queue is empty, up to the element of a `Push` in its section. -/
def Drained (g : Guarded T) (o : Option (Pc T)) : Prop :=
  g.shutdown = true → g.queue = [] ∨ ∃ v, o = some (.notifyOne v) ∨ o = some (.unlock (.push v))

/-- The return is not that of a `Push` with `_shutdown` set. -/
def NotLate (g : Guarded T) (r : Return T) : Prop := ∀ v, r = .push v → g.shutdown = false

theorem ShutdownBy.congr {g g' : Guarded T} {o o' : Option (Pc T)} (h : g.ShutdownBy o)
    (hs : g'.shutdown = g.shutdown) (hr : g'.returned = g.returned)
    (ho : o' = some .notifyAll ∨ o' = some (.unlock .cancel) ↔
      o = some .notifyAll ∨ o = some (.unlock .cancel)) : g'.ShutdownBy o' := by
  unfold ShutdownBy Cancelled at *
  rw [hs, hr, ho, h]

theorem shutdownBy_kept (isPointer : Bool) :
    ProducerConsumerQueue.Kept isPointer (fun _ _ => True) (ShutdownBy (T := T)) where
  enter g c h := h.congr rfl rfl (by cases c <;> simp [Call.enter])
  statement := by
    intro g pc g' pc' h hg
    cases hg with
    | cancelStore => exact iff_of_true rfl (.inr (.inl rfl))
    | _ => exact h.congr rfl rfl (by simp)
  wait g h := h.congr rfl rfl (by simp)
  notifyOne g v h := h.congr rfl rfl (by simp)
  notifyAll g h := h.congr rfl rfl (by simp)
  unlock := by
    rintro g i r - h
    have hc : Cancelled { g with returned := g.returned ++ [(i, r)] } ↔
        g.Cancelled ∨ r = .cancel := by
      unfold Cancelled
      simp only [List.mem_append, List.mem_singleton, Prod.mk.injEq, exists_or, exists_eq_left]
      rw [eq_comm (a := r)]
    unfold ShutdownBy
    rw [hc]
    unfold ShutdownBy at h
    simpa using h

theorem drained_kept (isPointer : Bool) :
    ProducerConsumerQueue.Kept isPointer NotLate (fun g o => g.Asserted o ∧ Drained (T := T) g o) where
  enter g c h := ⟨asserted_some.mpr (ok_enter g c), fun hs => .inl ((h.2 hs).resolve_right nofun)⟩
  statement := by
    rintro g pc g' pc' ⟨hok, h⟩ hg
    have hok := asserted_some.mp hok
    refine ⟨asserted_some.mpr (ok_statement hok hg), fun hs => ?_⟩
    cases hg with
    | push v => exact .inr ⟨v, .inl rfl⟩
    | cancelStore => exact .inl hok
    | popPop v hq => exact absurd ((h hs).resolve_right nofun) hq
    | waitPop v hq => exact absurd ((h hs).resolve_right nofun) hq
    | cancelPop v hq => exact absurd ((h hs).resolve_right nofun) hq
    | _ => exact .inl ((h hs).resolve_right nofun)
  wait g h := ⟨asserted_none, fun hs => .inl ((h.2 hs).resolve_right nofun)⟩
  notifyOne := by
    rintro g v ⟨hok, -⟩
    have hq : g.queue ≠ [] := asserted_some.mp hok
    exact ⟨asserted_some.mpr hq, fun _ => .inr ⟨v, .inr rfl⟩⟩
  notifyAll := by
    rintro g ⟨hok, -⟩
    have hq : g.queue = [] ∧ g.shutdown = true := asserted_some.mp hok
    exact ⟨asserted_some.mpr hq, fun _ => .inl hq.1⟩
  unlock := by
    rintro g i r hC ⟨-, h⟩
    refine ⟨asserted_none, fun hs => .inl ?_⟩
    rcases h hs with hq | ⟨v, hv | hv⟩
    · exact hq
    · cases hv
    · rw [hC v (Pc.unlock.inj (Option.some.inj hv))] at hs
      cases hs

end Guarded

namespace ProducerConsumerQueue

variable {s s' : ProducerConsumerQueue T}

/-- With the lock free after a `Cancel` has returned, the queue is empty, and what was pushed is, with
multiplicity, what was delivered and what was deleted. -/
def Settled (s : ProducerConsumerQueue T) : Prop :=
  s.queueLock = none → s.guarded.Cancelled →
    s.guarded.queue = [] ∧
      s.guarded.pushed.Perm (s.guarded.delivered.map Prod.snd ++ s.guarded.deleted)

/-- The step does not return from a `Push` with `_shutdown` set. -/
def NoLatePush (s : ProducerConsumerQueue T) (a : Action T) : Prop :=
  ∀ i w v, a = .thread i w → s.threads[i]? = some (.unlock (.push v)) → s.guarded.shutdown = false

/-- The invariant of the runs without a late `Push`. -/
structure Calm (s : ProducerConsumerQueue T) : Prop where
  inv : s.Inv true
  shutdownBy : s.guarded.ShutdownBy s.holder
  drained : s.guarded.Drained s.holder

theorem calm_initial (n : ℕ) : Calm (initial T n) where
  inv := inv_initial true n
  shutdownBy := iff_of_false Bool.false_ne_true (by rintro (⟨i, hi⟩ | h | h) <;> contradiction)
  drained := nofun

theorem Calm.step {a : Action T} (h : s.Calm) (hs : Step true s a s') (hC : s.NoLatePush a) :
    s'.Calm where
  inv := h.inv.step hs
  shutdownBy := (Guarded.shutdownBy_kept true).step h.inv.exclusive hs (fun _ _ _ _ _ => trivial)
    h.shutdownBy
  drained := ((Guarded.drained_kept true).step h.inv.exclusive hs
    (fun i w _ ha hi v hr => hC i w v ha (hr ▸ hi)) ⟨h.inv.ledger.1, h.drained⟩).2

theorem Calm.settled (h : s.Calm) : s.Settled := by
  intro hl hcancel
  have hold : s.holder = none := by rw [holder, hl]; rfl
  have hs : s.guarded.shutdown = true := h.shutdownBy.mpr (.inl hcancel)
  have hq : s.guarded.queue = [] := by
    refine (h.drained hs).resolve_right ?_
    rw [hold]
    rintro ⟨v, h | h⟩ <;> cases h
  obtain ⟨-, removed, hc, hd, -⟩ := h.inv.ledger
  refine ⟨hq, List.Perm.of_eq ?_⟩
  rw [hold] at hc hd
  rw [hq] at hc
  rw [show s.guarded.deleted = removed ++ [] from hd rfl]
  simpa [Pc.inserted, Pc.taken] using hc

/-- A late `Push` leaves its pointer in the queue. -/
theorem Calm.not_settled {a : Action T} (h : s.Calm) (hs : s.step true a = some s')
    (hsettled : s'.Settled) : s.NoLatePush a := by
  rintro i w v rfl hi
  by_contra hsd
  have hold : s.holder = some (.unlock (.push v)) := h.inv.exclusive.holder_eq hi rfl
  have hq : s.guarded.queue ≠ [] := h.inv.ok hi rfl
  have hcancel : s.guarded.Cancelled := by
    have := h.shutdownBy.mp (by simpa using hsd)
    rw [hold] at this
    exact this.resolve_right (by simp)
  obtain ⟨pc, hpc, hs⟩ := Option.bind_eq_some_iff.mp hs
  obtain rfl := Option.some.inj (hi.symm.trans hpc)
  obtain rfl := Option.some.inj hs
  obtain ⟨j, hj⟩ := hcancel
  exact hq (hsettled rfl ⟨j, List.mem_append_left _ hj⟩).1

/-- **Settled after `Cancel`, exactly without late pushes.** -/
theorem settled_iff_noLatePush (T : Type u) (n : ℕ) (as : List (Action T)) :
    (producerConsumerQueue T true n).Always Settled (initial T n) as ↔
      (producerConsumerQueue T true n).AllSteps NoLatePush (initial T n) as :=
  Machine.always_iff_allSteps (I := Calm) (fun _ h => h.settled)
    (fun _ _ _ h hs hC => h.step (step_cases hs) hC) (fun _ _ _ h hs hP => h.not_settled hs hP)
    (calm_initial n) as

/-- `Cancel`, then a `Push`: the pointer stays in the queue, neither delivered nor deleted. -/
theorem pushed_after_cancel : ∃ s : ProducerConsumerQueue ℕ,
    (producerConsumerQueue ℕ true 1).run (initial ℕ 1)
      ([.call 0 .cancel] ++ List.replicate 5 (.thread 0 none) ++ [.call 0 (.push 7)] ++
        List.replicate 4 (.thread 0 none)) = some s ∧
      s.queueLock = none ∧ s.guarded.Cancelled ∧ s.guarded.queue = [7] ∧ s.guarded.pushed = [7] ∧
      s.guarded.delivered = [] ∧ s.guarded.deleted = [] ∧ ¬ s.Settled := by
  refine ⟨_, rfl, rfl, ⟨0, List.mem_cons_self⟩, rfl, rfl, rfl, rfl, fun h => ?_⟩
  cases (h rfl ⟨0, List.mem_cons_self⟩).1

end ProducerConsumerQueue

end SelfStudy.Threading
