import SelfStudy.Threading.ProducerConsumerQueue

/-!
# Order of delivery

What was pushed is, in the order of the `Push` sections, what was delivered, then what `Cancel` took
out, then what is in the queue (`Ledger`). Nothing is delivered any more once something was taken out
by `Cancel`, because then `_shutdown` is set or about to be.
-/

namespace SelfStudy.Threading

open Lib ProducerConsumer

universe u

variable {T : Type u}

namespace ProducerConsumer

/-- The value that the call has pushed. -/
def Return.pushed? : Return T → Option T
  | .push v => some v
  | _ => none

/-- The value that the call has delivered. -/
def Return.value? : Return T → Option T
  | .pop v => v
  | .waitAndPop v => v
  | _ => none

namespace Pc

/-- What holds of the guarded data when the holder of the lock is about to execute the statement. -/
def Ok (g : Guarded T) : Pc T → Prop
  | .notifyOne _ => g.queue ≠ []
  | .popFront => g.queue ≠ [] ∧ g.shutdown = false
  | .popPop v => g.queue.head? = some v ∧ g.shutdown = false
  | .wait => g.queue = [] ∧ g.shutdown = false
  | .waitTest => g.queue = [] → g.shutdown = true
  | .waitFront => g.queue ≠ [] ∧ g.shutdown = false
  | .waitPop v => g.queue.head? = some v ∧ g.shutdown = false
  | .cancelDelete => g.queue ≠ []
  | .cancelPop v => g.queue.head? = some v
  | .cancelStore => g.queue = []
  | .notifyAll => g.queue = [] ∧ g.shutdown = true
  | .unlock (.push _) => g.queue ≠ []
  | .unlock (.pop (some _)) => g.shutdown = false
  | .unlock (.pop none) => g.queue = [] ∨ g.shutdown = true
  | .unlock (.waitAndPop (some _)) => g.shutdown = false
  | .unlock (.waitAndPop none) => g.shutdown = true
  | .unlock .cancel => g.queue = [] ∧ g.shutdown = true
  | .unlock (.empty b) => b = g.queue.isEmpty
  | .unlock (.size n) => n = g.queue.length
  | _ => True

/-- Pushed by the holder, which has not returned. -/
def inserted : Pc T → List T
  | .notifyOne v => [v]
  | .unlock r => r.pushed?.toList
  | _ => []

/-- Taken by the holder, which has not returned. -/
def taken : Pc T → List T
  | .unlock r => r.value?.toList
  | _ => []

/-- Deleted by the holder and still in the queue. -/
def doomed : Pc T → List T
  | .cancelPop v => [v]
  | _ => []

/-- In `Cancel`, before `_shutdown` is set. -/
def isCancelling : Pc T → Bool
  | .cancelWhile | .cancelDelete | .cancelPop _ | .cancelStore => true
  | _ => false

end Pc

end ProducerConsumer

namespace Guarded

/-- The values pushed, in the order of the `Push` sections. -/
def pushed (g : Guarded T) : List T := g.returned.filterMap fun e => e.2.pushed?

/-- The values delivered, each with the consumer, in the order of the sections. -/
def delivered (g : Guarded T) : List (ℕ × T) :=
  g.returned.filterMap fun e => e.2.value?.map fun v => (e.1, v)

/-- The assertion at the statement of the holder. -/
def Asserted (g : Guarded T) (o : Option (Pc T)) : Prop := ∀ pc, o = some pc → pc.Ok g

/-- Where the values pushed are; `removed` are those that `Cancel` took out. -/
structure LedgerOf (isPointer : Bool) (removed : List T) (g : Guarded T) (pc : Pc T) : Prop where
  conserved : g.pushed ++ pc.inserted =
    g.delivered.map Prod.snd ++ pc.taken ++ removed ++ g.queue
  deleted : isPointer = true → g.deleted = removed ++ pc.doomed
  shutdown : removed = [] ∨ g.shutdown = true ∨ pc.isCancelling = true

/-- A free lock counts as a holder outside its section. -/
def Ledger (isPointer : Bool) (g : Guarded T) (o : Option (Pc T)) : Prop :=
  g.Asserted o ∧ ∃ removed, g.LedgerOf isPointer removed (o.getD .idle)

variable {isPointer : Bool} {g g' : Guarded T} {pc pc' : Pc T} {removed : List T}

@[simp] theorem pushed_returned (g : Guarded T) (i : ℕ) (r : Return T) :
    pushed { g with returned := g.returned ++ [(i, r)] } = g.pushed ++ r.pushed?.toList := by
  cases hr : r.pushed? <;> simp [pushed, List.filterMap_append, hr]

@[simp] theorem map_delivered_returned (g : Guarded T) (i : ℕ) (r : Return T) :
    (delivered { g with returned := g.returned ++ [(i, r)] }).map Prod.snd =
      g.delivered.map Prod.snd ++ r.value?.toList := by
  cases hr : r.value? <;> simp [delivered, List.filterMap_append, hr]

theorem asserted_some : g.Asserted (some pc) ↔ pc.Ok g :=
  ⟨fun h => h pc rfl, fun h _ e => Option.some.inj e ▸ h⟩

theorem asserted_none : g.Asserted none := nofun

theorem ok_enter (g : Guarded T) (c : Call T) : c.enter.Ok g := by
  cases c <;> trivial

theorem ok_statement (h : pc.Ok g) (hs : g.Statement isPointer pc g' pc') : pc'.Ok g' := by
  cases hs with
  | push v => exact List.concat_ne_nil v g.queue
  | popFails hc => exact hc
  | popGoes hq hs => exact ⟨hq, hs⟩
  | popFront hq => exact ⟨hq, h.2⟩
  | popPop v => exact h.2
  | waitBlocks hq hs => exact ⟨hq, hs⟩
  | waitLeaves hc => exact hc
  | waitFails hc => exact hc.elim h id
  | waitGoes hq hs => exact ⟨hq, hs⟩
  | waitFront hq => exact ⟨hq, h.2⟩
  | waitPop v => exact h.2
  | cancelLeaves hq => exact hq
  | cancelGoes hq => exact hq
  | cancelDelete hq => exact hq
  | cancelPop v => trivial
  | cancelStore => exact ⟨h, rfl⟩
  | empty => rfl
  | size => rfl

/-- A consumer takes the front, and so nothing was taken out by `Cancel`. -/
theorem LedgerOf.pop {v : T} (h : g.LedgerOf isPointer removed pc) (hpc : pc.inserted = [])
    (ht : pc.taken = []) (hcancel : pc.isCancelling = false) (hq : g.queue.head? = some v)
    (hs : g.shutdown = false) (hpc' : pc'.inserted = []) (ht' : pc'.taken = [v])
    (hd : pc'.doomed = pc.doomed) :
    LedgerOf isPointer removed { g with queue := g.queue.tail } pc' := by
  have hr : removed = [] := by simpa [hs, hcancel] using h.shutdown
  refine ⟨?_, fun hp => hd ▸ h.deleted hp, .inl hr⟩
  have hc := h.conserved
  rw [hpc, ht, hr, ← List.cons_head?_tail hq] at hc
  rw [hpc', ht', hr]
  show g.pushed ++ [] = g.delivered.map Prod.snd ++ [v] ++ [] ++ g.queue.tail
  simpa using hc

theorem LedgerOf.statement (h : g.LedgerOf isPointer removed pc) (hok : pc.Ok g)
    (hs : g.Statement isPointer pc g' pc') : ∃ removed', g'.LedgerOf isPointer removed' pc' := by
  obtain ⟨hc, hd, hr⟩ := h
  cases hs with
  | push v =>
    refine ⟨removed, ⟨?_, hd, hr⟩⟩
    show g.pushed ++ [v] = g.delivered.map Prod.snd ++ [] ++ removed ++ (g.queue ++ [v])
    replace hc : g.pushed ++ [] = g.delivered.map Prod.snd ++ [] ++ removed ++ g.queue := hc
    rw [← List.append_assoc _ g.queue, ← hc, List.append_nil]
  | popPop v => exact ⟨removed, LedgerOf.pop ⟨hc, hd, hr⟩ rfl rfl rfl hok.1 hok.2 rfl rfl rfl⟩
  | waitPop v => exact ⟨removed, LedgerOf.pop ⟨hc, hd, hr⟩ rfl rfl rfl hok.1 hok.2 rfl rfl rfl⟩
  | @cancelDelete v hq =>
    refine ⟨removed, ⟨hc, fun hp => ?_, hr⟩⟩
    have hd : g.deleted = removed ++ [] := hd hp
    show (if isPointer then g.deleted ++ [v] else g.deleted) = removed ++ [v]
    rw [if_pos hp, hd, List.append_nil]
  | cancelPop v =>
    refine ⟨removed ++ [v], ⟨?_, fun hp => ?_, .inr (.inr rfl)⟩⟩
    · rw [← List.cons_head?_tail hok] at hc
      show g.pushed ++ [] = g.delivered.map Prod.snd ++ [] ++ (removed ++ [v]) ++ g.queue.tail
      simpa [Pc.inserted, Pc.taken] using hc
    · show g.deleted = removed ++ [v] ++ []
      rw [hd hp, List.append_nil]
      rfl
  | cancelStore => exact ⟨removed, ⟨hc, hd, .inr (.inl rfl)⟩⟩
  | _ => exact ⟨removed, ⟨hc, hd, hr⟩⟩

theorem LedgerOf.unlock {i : ℕ} {r : Return T} (h : g.LedgerOf isPointer removed (.unlock r)) :
    LedgerOf isPointer removed { g with returned := g.returned ++ [(i, r)] } .idle where
  conserved := by
    have hc := h.conserved
    simp only [Pc.inserted, Pc.taken] at hc
    simp only [pushed_returned, map_delivered_returned, Pc.inserted, Pc.taken, List.append_nil, hc]
  deleted := h.deleted
  shutdown := h.shutdown

theorem ledger_kept (isPointer : Bool) :
    ProducerConsumerQueue.Kept isPointer (fun _ _ => True) (Ledger (T := T) isPointer) where
  enter := by
    rintro g c ⟨-, removed, hc, hd, hr⟩
    refine ⟨asserted_some.mpr (ok_enter g c), removed, ?_⟩
    cases c <;> exact ⟨hc, hd, hr.imp_right fun h => h.elim .inl nofun⟩
  statement := by
    rintro g pc g' pc' ⟨hok, removed, h⟩ hs
    have hok := asserted_some.mp hok
    exact ⟨asserted_some.mpr (ok_statement hok hs), h.statement hok hs⟩
  wait := by
    rintro g ⟨-, removed, hc, hd, hr⟩
    exact ⟨asserted_none, removed, hc, hd, hr⟩
  notifyOne := by
    rintro g v ⟨hok, removed, hc, hd, hr⟩
    have hq : g.queue ≠ [] := asserted_some.mp hok
    exact ⟨asserted_some.mpr hq, removed, hc, hd, hr⟩
  notifyAll := by
    rintro g ⟨hok, removed, hc, hd, hr⟩
    have hq : g.queue = [] ∧ g.shutdown = true := asserted_some.mp hok
    exact ⟨asserted_some.mpr hq, removed, hc, hd, hr⟩
  unlock := by
    rintro g i r - ⟨-, removed, h⟩
    exact ⟨asserted_none, removed, h.unlock⟩

end Guarded

namespace ProducerConsumerQueue

variable {isPointer : Bool} {n : ℕ} {s s' : ProducerConsumerQueue T}

/-- The invariant of every run. -/
structure Inv (isPointer : Bool) (s : ProducerConsumerQueue T) : Prop where
  exclusive : s.Exclusive
  ledger : s.guarded.Ledger isPointer s.holder

theorem inv_initial (isPointer : Bool) (n : ℕ) : Inv isPointer (initial T n) where
  exclusive := exclusive_initial n
  ledger := ⟨Guarded.asserted_none, [], rfl, fun _ => rfl, .inl rfl⟩

theorem Inv.step {a : Action T} (h : s.Inv isPointer) (hs : Step isPointer s a s') :
    s'.Inv isPointer where
  exclusive := exclusive_step h.exclusive hs
  ledger := (Guarded.ledger_kept isPointer).step h.exclusive hs (fun _ _ _ _ _ => trivial) h.ledger

theorem inv_of_reachable (h : (producerConsumerQueue T isPointer n).Reachable s) :
    s.Inv isPointer :=
  h.invariant (P := Inv isPointer) (fun _ hi => hi ▸ inv_initial isPointer n)
    fun _ _ _ _ hi _ hs => hi.step (step_cases hs)

/-- The assertion at the statement of a thread inside. -/
theorem Inv.ok {i : ℕ} {pc : Pc T} (h : s.Inv isPointer) (hi : s.threads[i]? = some pc)
    (hpc : pc.inSection = true) : pc.Ok s.guarded :=
  h.ledger.1 pc (h.exclusive.holder_eq hi hpc)

/-! ## Order of delivery -/

theorem inserted_length_le {g : Guarded T} {o : Option (Pc T)} (h : g.Asserted o) :
    (o.getD .idle).inserted.length ≤ g.queue.length := by
  have pos : ∀ {v : T}, g.queue ≠ [] → [v].length ≤ g.queue.length := by
    intro v hq
    exact List.length_pos_iff.mpr hq
  cases o with
  | none => exact Nat.zero_le _
  | some pc =>
    have hok := h pc rfl
    cases pc with
    | notifyOne v => exact pos hok
    | unlock r =>
      cases r with
      | push v => exact pos hok
      | _ => exact Nat.zero_le _
    | _ => exact Nat.zero_le _

theorem Inv.delivered_in_order (h : s.Inv isPointer) :
    s.guarded.delivered.map Prod.snd <+: s.guarded.pushed := by
  obtain ⟨hok, removed, hc, -, -⟩ := h.ledger
  have hle := inserted_length_le hok
  have hlen := congrArg List.length hc
  simp only [List.length_append] at hlen
  refine List.prefix_of_prefix_length_le ?_ (List.prefix_append _ (s.holder.getD .idle).inserted)
    (by omega)
  rw [hc, List.append_assoc, List.append_assoc]
  exact List.prefix_append _ _

/-- What a thread with the lock releases it with. -/
theorem Inv.shutdown_of_unwritten {i : ℕ} (h : s.Inv isPointer)
    (hi : s.threads[i]? = some (.unlock (.waitAndPop none))) : s.guarded.shutdown = true :=
  h.ok hi rfl

/-- Once `_shutdown` is set, no return delivers a value. -/
theorem Inv.delivered_of_shutdown {a : Action T} (h : s.Inv isPointer)
    (hsd : s.guarded.shutdown = true) (hs : Step isPointer s a s') :
    s'.guarded.delivered = s.guarded.delivered := by
  cases hs with
  | @unlock i w r hi =>
    have hr : r.value? = none := by
      have hok := h.ok hi rfl
      rcases r with _ | (_ | v) | (_ | v) | _ | _ | _ <;> first | rfl | exact absurd hok (by simp [Pc.Ok, hsd])
    show List.filterMap _ (s.guarded.returned ++ [(i, r)]) = _
    simp [Guarded.delivered, List.filterMap_append, hr]
  | statement hi hg => cases hg <;> rfl
  | _ => rfl

end ProducerConsumerQueue

/-- **Delivery.** In every reachable state the values delivered are the first ones of those pushed,
from the store of `_shutdown` on none is delivered, and `WaitAndPop` leaves its argument unwritten
only with `_shutdown` set. -/
theorem delivers_in_order (T : Type u) (isPointer : Bool) (n : ℕ) :
    ∀ s : ProducerConsumerQueue T, (producerConsumerQueue T isPointer n).Reachable s →
      s.guarded.delivered.map Prod.snd <+: s.guarded.pushed ∧
      (s.guarded.shutdown = true → ∀ a s', s.step isPointer a = some s' →
        s'.guarded.delivered = s.guarded.delivered) ∧
      ∀ i : ℕ, s.threads[i]? = some (.unlock (.waitAndPop none)) → s.guarded.shutdown = true := by
  intro s hs
  have h := ProducerConsumerQueue.inv_of_reachable hs
  exact ⟨h.delivered_in_order,
    fun hsd a s' hs' => h.delivered_of_shutdown hsd (ProducerConsumerQueue.step_cases hs'),
    fun i hi => h.shutdown_of_unwritten hi⟩

/-- A push and a `WaitAndPop` by two threads. -/
theorem delivers_in_order_seven : ∃ s : ProducerConsumerQueue ℕ,
    s.guarded.delivered = [(1, 7)] ∧ s.guarded.delivered.map Prod.snd <+: s.guarded.pushed := by
  obtain ⟨s, hs, hd⟩ : ∃ s, (producerConsumerQueue ℕ false 2).run (.initial ℕ 2)
      ([.call 0 (.push 7), .call 1 .waitAndPop] ++ List.replicate 4 (.thread 0 none) ++
        List.replicate 6 (.thread 1 none)) = some s ∧ s.guarded.delivered = [(1, 7)] :=
    ⟨_, rfl, rfl⟩
  have h := delivers_in_order ℕ false 2 s (Machine.Reachable.run (.init rfl) hs)
  exact ⟨s, hd, h.1⟩

end SelfStudy.Threading
