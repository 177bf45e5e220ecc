import SelfStudy.Lib.Machine
import SelfStudy.Lib.Monitor
import Mathlib.Tactic.Simps.Basic

/-!
# The producer-consumer queue

`ProducerConsumerQueue.h` as a transition system. Each thread calls member functions one after
another, any of them and as often as it likes. A step is one statement, or one operation on
`_queueLock` or `_condition`; a `wait` releases the mutex and falls asleep in one step. A
notification turns a sleeper into a thread that has to take the mutex again (`notified`), a spurious
wakeup does the same without one (`woken`).

`std::is_pointer_v<T>` is the parameter `isPointer`. What `front()` and `pop()` do on an empty
`std::queue` is undefined, and there the step is not enabled.
-/

namespace SelfStudy.Threading

open Lib

universe u

namespace ProducerConsumer

/-- A call of a member function. `Push` is both of the overloads. -/
inductive Call (T : Type u)
  | push (value : T)
  | pop
  | waitAndPop
  | cancel
  | empty
  | size
  deriving DecidableEq, Repr

/-- What a call returns or has written to its argument; `pop none` is `false`, and `waitAndPop none`
has left the argument as it was. -/
inductive Return (T : Type u)
  | push (value : T)
  | pop (value : Option T)
  | waitAndPop (value : Option T)
  | cancel
  | empty (b : Bool)
  | size (n : ℕ)
  deriving DecidableEq, Repr

/-- A thread, by the statement it is about to execute. -/
inductive Pc (T : Type u)
  | idle
  | lock (c : Call T)
  | push (value : T)
  | notifyOne (value : T)
  | popTest
  | popFront
  | popPop (value : T)
  | waitWhile
  | wait
  | asleep
  | notified
  | woken
  | waitTest
  | waitFront
  | waitPop (value : T)
  | cancelWhile
  | cancelDelete
  | cancelPop (value : T)
  | cancelStore
  | notifyAll
  | empty
  | size
  | unlock (r : Return T)
  deriving DecidableEq, Repr

variable {T : Type u}

/-- The first statement after the lock was taken. -/
def Call.enter : Call T → Pc T
  | .push v => .push v
  | .pop => .popTest
  | .waitAndPop => .waitWhile
  | .cancel => .cancelWhile
  | .empty => .empty
  | .size => .size

namespace Pc

/-- The statements executed holding `_queueLock`. -/
def inSection : Pc T → Bool
  | .idle | .lock _ | .asleep | .notified | .woken => false
  | _ => true

def isIdle : Pc T → Bool
  | .idle => true
  | _ => false

/-- Blocked in `_condition`, not notified. -/
def isAsleep : Pc T → Bool
  | .asleep => true
  | _ => false

/-- Notified, and `_queueLock` not yet taken again. -/
def isNotified : Pc T → Bool
  | .notified => true
  | _ => false

/-- `notify_all` on one thread. -/
def notify : Pc T → Pc T
  | .asleep => .notified
  | pc => pc

end Pc

end ProducerConsumer

open ProducerConsumer

/-- The data under `_queueLock`. `returned` lists the returns of the calls, each with its thread, in
the order in which they release the lock, `deleted` the pointers that were deleted; both are not in
the source. -/
structure Guarded (T : Type u) where
  queue : List T
  shutdown : Bool
  deleted : List T
  returned : List (ℕ × Return T)
  deriving DecidableEq, Repr

structure ProducerConsumerQueue (T : Type u) where
  queueLock : Option ℕ
  guarded : Guarded T
  threads : List (Pc T)
  deriving DecidableEq, Repr

namespace ProducerConsumer

/-- Thread `i` calls a member function, takes its next step (`wake` is the sleeper that `notify_one`
picks, if there is one), or wakes up without a notification. -/
inductive Action (T : Type u)
  | call (i : ℕ) (c : Call T)
  | thread (i : ℕ) (wake : Option ℕ)
  | spurious (i : ℕ)
  deriving DecidableEq, Repr

end ProducerConsumer

variable {T : Type u}

namespace Guarded

/-- The statements between the operations on the mutex and on the condition variable. To copy or move
a `T` does not throw here, not even in `WaitAndPop`, which copies under the lock. -/
def statement (isPointer : Bool) (g : Guarded T) : Pc T → Option (Guarded T × Pc T)
  | .push v => some ({ g with queue := g.queue ++ [v] }, .notifyOne v)
  | .popTest => some (g, if g.queue.isEmpty || g.shutdown then .unlock (.pop none) else .popFront)
  | .popFront => g.queue.head?.map fun v => (g, .popPop v)
  | .popPop v =>
    if g.queue.isEmpty then none else some ({ g with queue := g.queue.tail }, .unlock (.pop (some v)))
  | .waitWhile => some (g, if g.queue.isEmpty && !g.shutdown then .wait else .waitTest)
  | .waitTest =>
    some (g, if g.queue.isEmpty || g.shutdown then .unlock (.waitAndPop none) else .waitFront)
  | .waitFront => g.queue.head?.map fun v => (g, .waitPop v)
  | .waitPop v =>
    if g.queue.isEmpty then none
    else some ({ g with queue := g.queue.tail }, .unlock (.waitAndPop (some v)))
  | .cancelWhile => some (g, if g.queue.isEmpty then .cancelStore else .cancelDelete)
  | .cancelDelete => g.queue.head?.map fun v =>
      ({ g with deleted := if isPointer then g.deleted ++ [v] else g.deleted }, .cancelPop v)
  | .cancelPop _ => if g.queue.isEmpty then none else some ({ g with queue := g.queue.tail }, .cancelWhile)
  | .cancelStore => some ({ g with shutdown := true }, .notifyAll)
  | .empty => some (g, .unlock (.empty g.queue.isEmpty))
  | .size => some (g, .unlock (.size g.queue.length))
  | _ => none

/-- The statements by what they do. -/
inductive Statement (isPointer : Bool) (g : Guarded T) : Pc T → Guarded T → Pc T → Prop
  | push (v) : Statement isPointer g (.push v) { g with queue := g.queue ++ [v] } (.notifyOne v)
  | popFails (h : g.queue = [] ∨ g.shutdown = true) :
    Statement isPointer g .popTest g (.unlock (.pop none))
  | popGoes (hq : g.queue ≠ []) (hs : g.shutdown = false) : Statement isPointer g .popTest g .popFront
  | popFront {v} (hq : g.queue.head? = some v) : Statement isPointer g .popFront g (.popPop v)
  | popPop (v) (hq : g.queue ≠ []) :
    Statement isPointer g (.popPop v) { g with queue := g.queue.tail } (.unlock (.pop (some v)))
  | waitBlocks (hq : g.queue = []) (hs : g.shutdown = false) : Statement isPointer g .waitWhile g .wait
  | waitLeaves (h : g.queue = [] → g.shutdown = true) : Statement isPointer g .waitWhile g .waitTest
  | waitFails (h : g.queue = [] ∨ g.shutdown = true) :
    Statement isPointer g .waitTest g (.unlock (.waitAndPop none))
  | waitGoes (hq : g.queue ≠ []) (hs : g.shutdown = false) :
    Statement isPointer g .waitTest g .waitFront
  | waitFront {v} (hq : g.queue.head? = some v) : Statement isPointer g .waitFront g (.waitPop v)
  | waitPop (v) (hq : g.queue ≠ []) :
    Statement isPointer g (.waitPop v) { g with queue := g.queue.tail }
      (.unlock (.waitAndPop (some v)))
  | cancelLeaves (hq : g.queue = []) : Statement isPointer g .cancelWhile g .cancelStore
  | cancelGoes (hq : g.queue ≠ []) : Statement isPointer g .cancelWhile g .cancelDelete
  | cancelDelete {v} (hq : g.queue.head? = some v) :
    Statement isPointer g .cancelDelete
      { g with deleted := if isPointer then g.deleted ++ [v] else g.deleted } (.cancelPop v)
  | cancelPop (v) (hq : g.queue ≠ []) :
    Statement isPointer g (.cancelPop v) { g with queue := g.queue.tail } .cancelWhile
  | cancelStore : Statement isPointer g .cancelStore { g with shutdown := true } .notifyAll
  | empty : Statement isPointer g .empty g (.unlock (.empty g.queue.isEmpty))
  | size : Statement isPointer g .size g (.unlock (.size g.queue.length))

variable {isPointer : Bool} {g g' : Guarded T} {pc pc' : Pc T}

theorem statement_cases (h : g.statement isPointer pc = some (g', pc')) :
    Statement isPointer g pc g' pc' := by
  obtain ⟨queue, shutdown, deleted, returned⟩ := g
  cases pc <;> simp only [statement, Option.some.injEq, Prod.mk.injEq, Option.map_eq_some_iff,
    Option.ite_none_left_eq_some, List.isEmpty_iff, reduceCtorEq] at h
  case push v => obtain ⟨rfl, rfl⟩ := h; exact .push v
  case popTest =>
    obtain ⟨rfl, rfl⟩ := h
    split_ifs with hc
    · exact .popFails (by simpa using hc)
    · obtain ⟨hq, hs⟩ : queue ≠ [] ∧ shutdown = false := by simpa using hc
      exact .popGoes hq hs
  case popFront => obtain ⟨v, hq, rfl, rfl⟩ := h; exact .popFront hq
  case popPop v => obtain ⟨hq, rfl, rfl⟩ := h; exact .popPop v hq
  case waitWhile =>
    obtain ⟨rfl, rfl⟩ := h
    split_ifs with hc
    · obtain ⟨hq, hs⟩ : queue = [] ∧ shutdown = false := by simpa using hc
      exact .waitBlocks hq hs
    · exact .waitLeaves (by simpa using hc)
  case waitTest =>
    obtain ⟨rfl, rfl⟩ := h
    split_ifs with hc
    · exact .waitFails (by simpa using hc)
    · obtain ⟨hq, hs⟩ : queue ≠ [] ∧ shutdown = false := by simpa using hc
      exact .waitGoes hq hs
  case waitFront => obtain ⟨v, hq, rfl, rfl⟩ := h; exact .waitFront hq
  case waitPop v => obtain ⟨hq, rfl, rfl⟩ := h; exact .waitPop v hq
  case cancelWhile =>
    obtain ⟨rfl, rfl⟩ := h
    split_ifs with hq
    · exact .cancelLeaves hq
    · exact .cancelGoes hq
  case cancelDelete => obtain ⟨v, hq, rfl, rfl⟩ := h; exact .cancelDelete hq
  case cancelPop v => obtain ⟨hq, rfl, rfl⟩ := h; exact .cancelPop v hq
  case cancelStore => obtain ⟨rfl, rfl⟩ := h; exact .cancelStore
  case empty => obtain ⟨rfl, rfl⟩ := h; exact .empty
  case size => obtain ⟨rfl, rfl⟩ := h; exact .size

end Guarded

namespace ProducerConsumerQueue

/-- A new queue, and `n` threads that use it. -/
def initial (T : Type u) (n : ℕ) : ProducerConsumerQueue T where
  queueLock := none
  guarded := ⟨[], false, [], []⟩
  threads := List.replicate n .idle

@[simps] def setThread (s : ProducerConsumerQueue T) (i : ℕ) (pc : Pc T) : ProducerConsumerQueue T :=
  { s with threads := s.threads.set i pc }

@[simps] def setLock (s : ProducerConsumerQueue T) (l : Option ℕ) : ProducerConsumerQueue T :=
  { s with queueLock := l }

@[simps] def setGuarded (s : ProducerConsumerQueue T) (g : Guarded T) : ProducerConsumerQueue T :=
  { s with guarded := g }

/-- Take `_queueLock` and go on at `pc`. -/
def acquire (s : ProducerConsumerQueue T) (i : ℕ) (pc : Pc T) : Option (ProducerConsumerQueue T) :=
  if s.queueLock = none then some ((s.setLock (some i)).setThread i pc) else none

/-- The next step of thread `i`. -/
def threadStep (isPointer : Bool) (s : ProducerConsumerQueue T) (i : ℕ) (wake : Option ℕ) :
    Pc T → Option (ProducerConsumerQueue T)
  | .idle => none
  | .asleep => none
  | .lock c => s.acquire i c.enter
  | .notified => s.acquire i .waitWhile
  | .woken => s.acquire i .waitWhile
  | .wait => some ((s.setLock none).setThread i .asleep)
  | .notifyOne v =>
    match wake with
    | some j =>
      if (s.threads[j]?.map Pc.isAsleep) = some true then
        some ((s.setThread j .notified).setThread i (.unlock (.push v)))
      else none
    | none => if s.threads.any Pc.isAsleep then none else some (s.setThread i (.unlock (.push v)))
  | .notifyAll => some ({ s with threads := s.threads.map Pc.notify }.setThread i (.unlock .cancel))
  | .unlock r =>
    some (((s.setGuarded { s.guarded with returned := s.guarded.returned ++ [(i, r)] }).setLock
      none).setThread i .idle)
  | pc => (s.guarded.statement isPointer pc).map fun x => (s.setGuarded x.1).setThread i x.2

def step (isPointer : Bool) (s : ProducerConsumerQueue T) : Action T → Option (ProducerConsumerQueue T)
  | .call i c =>
    if (s.threads[i]?.map Pc.isIdle) = some true then some (s.setThread i (.lock c))
    else none
  | .thread i wake => s.threads[i]?.bind (s.threadStep isPointer i wake)
  | .spurious i =>
    if (s.threads[i]?.map Pc.isAsleep) = some true then some (s.setThread i .woken) else none

/-! ## What a step can do -/

/-- The steps by what they do. -/
inductive Step (isPointer : Bool) (s : ProducerConsumerQueue T) :
    Action T → ProducerConsumerQueue T → Prop
  | call {i c} (hi : s.threads[i]? = some .idle) :
    Step isPointer s (.call i c) (s.setThread i (.lock c))
  | lock {i w c} (hi : s.threads[i]? = some (.lock c)) (hl : s.queueLock = none) :
    Step isPointer s (.thread i w) ((s.setLock (some i)).setThread i c.enter)
  | relock {i w pc} (hi : s.threads[i]? = some pc) (hpc : pc = .notified ∨ pc = .woken)
      (hl : s.queueLock = none) :
    Step isPointer s (.thread i w) ((s.setLock (some i)).setThread i .waitWhile)
  | wait {i w} (hi : s.threads[i]? = some .wait) :
    Step isPointer s (.thread i w) ((s.setLock none).setThread i .asleep)
  | notify {i j v} (hi : s.threads[i]? = some (.notifyOne v)) (hj : s.threads[j]? = some .asleep) :
    Step isPointer s (.thread i (some j)) ((s.setThread j .notified).setThread i (.unlock (.push v)))
  | notifyNone {i v} (hi : s.threads[i]? = some (.notifyOne v)) (hn : s.threads.countP Pc.isAsleep = 0) :
    Step isPointer s (.thread i none) (s.setThread i (.unlock (.push v)))
  | notifyAll {i w} (hi : s.threads[i]? = some .notifyAll) :
    Step isPointer s (.thread i w)
      ({ s with threads := s.threads.map Pc.notify }.setThread i (.unlock .cancel))
  | unlock {i w r} (hi : s.threads[i]? = some (.unlock r)) :
    Step isPointer s (.thread i w)
      (((s.setGuarded { s.guarded with returned := s.guarded.returned ++ [(i, r)] }).setLock
        none).setThread i .idle)
  | statement {i w pc g pc'} (hi : s.threads[i]? = some pc)
      (hg : s.guarded.Statement isPointer pc g pc') :
    Step isPointer s (.thread i w) ((s.setGuarded g).setThread i pc')
  | spurious {i} (hi : s.threads[i]? = some .asleep) :
    Step isPointer s (.spurious i) (s.setThread i .woken)

theorem getElem?_of_isAsleep {ts : List (Pc T)} {i : ℕ} (h : ts[i]?.map Pc.isAsleep = some true) :
    ts[i]? = some .asleep := by
  obtain ⟨pc, hi, hpc⟩ := Option.map_eq_some_iff.mp h
  cases pc <;> first | exact hi | cases hpc

theorem getElem?_of_isIdle {ts : List (Pc T)} {i : ℕ} (h : ts[i]?.map Pc.isIdle = some true) :
    ts[i]? = some .idle := by
  obtain ⟨pc, hi, hpc⟩ := Option.map_eq_some_iff.mp h
  cases pc <;> first | exact hi | cases hpc

variable {isPointer : Bool} {s s' : ProducerConsumerQueue T}

theorem acquire_eq_some {i : ℕ} {pc : Pc T} (h : s.acquire i pc = some s') :
    s.queueLock = none ∧ s' = (s.setLock (some i)).setThread i pc := by
  unfold acquire at h
  split_ifs at h with hl
  exact ⟨hl, (Option.some.inj h).symm⟩

theorem step_thread {i : ℕ} {w : Option ℕ} (h : s.step isPointer (.thread i w) = some s') :
    Step isPointer s (.thread i w) s' := by
  obtain ⟨pc, hi, h⟩ := Option.bind_eq_some_iff.mp h
  have hstatement : (s.guarded.statement isPointer pc).map
      (fun x => (s.setGuarded x.1).setThread i x.2) = some s' →
        Step isPointer s (.thread i w) s' := by
    intro h
    obtain ⟨x, hx, rfl⟩ := Option.map_eq_some_iff.mp h
    exact .statement hi (Guarded.statement_cases hx)
  cases pc with
  | idle => cases h
  | asleep => cases h
  | lock c =>
    obtain ⟨hl, rfl⟩ := acquire_eq_some h
    exact .lock hi hl
  | notified =>
    obtain ⟨hl, rfl⟩ := acquire_eq_some h
    exact .relock hi (.inl rfl) hl
  | woken =>
    obtain ⟨hl, rfl⟩ := acquire_eq_some h
    exact .relock hi (.inr rfl) hl
  | wait => exact Option.some.inj h ▸ .wait hi
  | notifyOne v =>
    cases w with
    | some j =>
      simp only [threadStep, Option.ite_none_right_eq_some, Option.some.injEq] at h
      obtain ⟨hj, rfl⟩ := h
      exact .notify hi (getElem?_of_isAsleep hj)
    | none =>
      simp only [threadStep, Option.ite_none_left_eq_some, Option.some.injEq] at h
      obtain ⟨hn, rfl⟩ := h
      exact .notifyNone hi (by simpa using hn)
  | notifyAll => exact Option.some.inj h ▸ .notifyAll hi
  | unlock r => exact Option.some.inj h ▸ .unlock hi
  | _ => exact hstatement h

/-- **Inversion.** -/
theorem step_cases {a : Action T} (h : s.step isPointer a = some s') : Step isPointer s a s' := by
  cases a with
  | call i c =>
    simp only [step, Option.ite_none_right_eq_some, Option.some.injEq] at h
    obtain ⟨hi, rfl⟩ := h
    exact .call (getElem?_of_isIdle hi)
  | thread i w => exact step_thread h
  | spurious i =>
    simp only [step, Option.ite_none_right_eq_some, Option.some.injEq] at h
    obtain ⟨hi, rfl⟩ := h
    exact .spurious (getElem?_of_isAsleep hi)

/-! ## The monitor rule -/

/-- The statement that the thread with `_queueLock` is about to execute. -/
def holder (s : ProducerConsumerQueue T) : Option (Pc T) := Monitor.holder s.queueLock s.threads

/-- `_queueLock` is held by exactly the thread inside a section of it. -/
def Exclusive (s : ProducerConsumerQueue T) : Prop :=
  Monitor.Exclusive Pc.inSection s.queueLock s.threads

/-- `Φ` of the guarded data and the statement of the holder is kept by what a holder does, as long as
the returns meet `C`. -/
structure Kept (isPointer : Bool) (C : Guarded T → Return T → Prop)
    (Φ : Guarded T → Option (Pc T) → Prop) : Prop where
  enter : ∀ g (c : Call T), Φ g none → Φ g (some c.enter)
  statement : ∀ g pc g' pc', Φ g (some pc) → g.Statement isPointer pc g' pc' → Φ g' (some pc')
  wait : ∀ g, Φ g (some .wait) → Φ g none
  notifyOne : ∀ g v, Φ g (some (.notifyOne v)) → Φ g (some (.unlock (.push v)))
  notifyAll : ∀ g, Φ g (some .notifyAll) → Φ g (some (.unlock .cancel))
  unlock : ∀ g i r, C g r → Φ g (some (.unlock r)) →
    Φ { g with returned := g.returned ++ [(i, r)] } none

theorem inSection_statement {g g' : Guarded T} {pc pc' : Pc T}
    (h : Guarded.Statement isPointer g pc g' pc') : pc.inSection = true ∧ pc'.inSection = true := by
  cases h <;> exact ⟨rfl, rfl⟩

theorem inSection_enter (c : Call T) : c.enter.inSection = true := by
  cases c <;> rfl

theorem inSection_notify (pc : Pc T) : pc.notify.inSection = pc.inSection := by
  cases pc <;> rfl

theorem getElem?_setThread_ne {i j : ℕ} {v : T} (hi : s.threads[i]? = some (.notifyOne v))
    (hj : s.threads[j]? = some .asleep) (x : Pc T) :
    (s.setThread j x).threads[i]? = some (.notifyOne v) := by
  rw [setThread_threads, List.getElem?_set_ne, hi]
  rintro rfl
  rw [hi] at hj
  cases hj

theorem getElem?_map_notify {i : ℕ} (hi : s.threads[i]? = some .notifyAll) :
    (s.threads.map Pc.notify)[i]? = some .notifyAll := by
  rw [List.getElem?_map, hi]
  rfl

theorem exclusive_initial (n : ℕ) : (initial T n).Exclusive :=
  Monitor.exclusive_none fun pc hpc => by rw [List.eq_of_mem_replicate hpc]; rfl

theorem exclusive_step {a : Action T} (h : s.Exclusive) (hs : Step isPointer s a s') :
    s'.Exclusive := by
  cases hs with
  | call hi => exact h.set hi rfl
  | @lock i w c hi hl =>
    unfold Exclusive at h ⊢
    rw [hl] at h
    exact h.acquire hi (inSection_enter c)
  | relock hi hpc hl =>
    unfold Exclusive at h ⊢
    rw [hl] at h
    exact h.acquire hi rfl
  | wait hi =>
    have hl := h.lock_eq hi rfl
    unfold Exclusive at h
    rw [hl] at h
    exact h.release rfl
  | @notify i j v hi hj =>
    have h' : (s.setThread j .notified).Exclusive := h.set hj rfl
    have hi' := getElem?_setThread_ne hi hj .notified
    exact h'.set hi' rfl
  | notifyNone hi => exact h.set hi rfl
  | @notifyAll i w hi =>
    have h' : Exclusive { s with threads := s.threads.map Pc.notify } := h.map inSection_notify
    exact h'.set (getElem?_map_notify hi) rfl
  | unlock hi =>
    have hl := h.lock_eq hi rfl
    unfold Exclusive at h
    rw [hl] at h
    exact h.release rfl
  | statement hi hg =>
    obtain ⟨hpc, hpc'⟩ := inSection_statement hg
    exact h.set hi (hpc'.trans hpc.symm)
  | spurious hi => exact h.set hi rfl

theorem holder_notify {i j : ℕ} {v : T} (h : s.Exclusive) (hi : s.threads[i]? = some (.notifyOne v))
    (hj : s.threads[j]? = some .asleep) (x : Pc T) :
    ((s.setThread j .notified).setThread i x).holder = some x := by
  have h' : (s.setThread j .notified).Exclusive := h.set hj rfl
  exact h'.holder_set_inside (getElem?_setThread_ne hi hj _) rfl x

theorem holder_notifyAll {i : ℕ} (h : s.Exclusive) (hi : s.threads[i]? = some .notifyAll) (x : Pc T) :
    ({ s with threads := s.threads.map Pc.notify }.setThread i x).holder = some x := by
  have h' : Exclusive { s with threads := s.threads.map Pc.notify } := h.map inSection_notify
  exact h'.holder_set_inside (getElem?_map_notify hi) rfl x

/-- **The monitor rule.** -/
theorem Kept.step {C : Guarded T → Return T → Prop} {Φ : Guarded T → Option (Pc T) → Prop}
    {a : Action T} (hΦ : Kept isPointer C Φ) (hx : s.Exclusive) (hs : Step isPointer s a s')
    (hC : ∀ i w r, a = .thread i w → s.threads[i]? = some (.unlock r) → C s.guarded r)
    (h : Φ s.guarded s.holder) : Φ s'.guarded s'.holder := by
  have inside : ∀ {i : ℕ} {pc : Pc T}, s.threads[i]? = some pc → pc.inSection = true → Φ s.guarded (some pc) := by
    intro i pc hi hpc
    rw [← hx.holder_eq hi hpc]
    exact h
  have free : s.queueLock = none → Φ s.guarded none := by
    intro hl
    rwa [holder, hl] at h
  cases hs with
  | @call i c hi =>
    have e : (s.setThread i (.lock c)).holder = s.holder := hx.holder_set_outside hi rfl _
    rw [e]; exact h
  | @lock i w c hi hl =>
    have e : ((s.setLock (some i)).setThread i c.enter).holder = some c.enter :=
      Monitor.holder_acquire hi _
    rw [e]; exact hΦ.enter _ c (free hl)
  | @relock i w pc hi hpc hl =>
    have e : ((s.setLock (some i)).setThread i .waitWhile).holder = some .waitWhile :=
      Monitor.holder_acquire hi _
    rw [e]; exact hΦ.enter _ .waitAndPop (free hl)
  | wait hi => exact hΦ.wait _ (inside hi rfl)
  | @notify i j v hi hj =>
    have e := holder_notify hx hi hj (.unlock (.push v))
    rw [e]; exact hΦ.notifyOne _ v (inside hi rfl)
  | @notifyNone i v hi =>
    have e : (s.setThread i (.unlock (.push v))).holder = some (.unlock (.push v)) :=
      hx.holder_set_inside hi rfl _
    rw [e]; exact hΦ.notifyOne _ v (inside hi rfl)
  | @notifyAll i w hi =>
    have e := holder_notifyAll hx hi (.unlock .cancel)
    rw [e]; exact hΦ.notifyAll _ (inside hi rfl)
  | @unlock i w r hi => exact hΦ.unlock _ i r (hC i w r rfl hi) (inside hi rfl)
  | @statement i w pc g pc' hi hg =>
    obtain ⟨hpc, -⟩ := inSection_statement hg
    have e : ((s.setGuarded g).setThread i pc').holder = some pc' := hx.holder_set_inside hi hpc _
    rw [e]; exact hΦ.statement _ _ _ _ (inside hi hpc) hg
  | @spurious i hi =>
    have e : (s.setThread i .woken).holder = s.holder := hx.holder_set_outside hi rfl _
    rw [e]; exact h

end ProducerConsumerQueue

/-- The queue of `T` under the calls of `n` threads. -/
def producerConsumerQueue (T : Type u) (isPointer : Bool) (n : ℕ) :
    Machine (ProducerConsumerQueue T) (Action T) where
  init s := s = .initial T n
  step := ProducerConsumerQueue.step isPointer

end SelfStudy.Threading
