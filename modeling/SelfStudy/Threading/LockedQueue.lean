import SelfStudy.Lib.Count
import SelfStudy.Lib.Machine
import SelfStudy.Lib.Monitor
import Mathlib.Tactic.Simps.Basic

/-!
# The locked queue

`LockedQueue.h` as a transition system, with the exceptions of the statements that copy or store an
item or call the checker. Each thread calls member functions one after another. A step is one
statement, or one operation on `_lock`.

`add` locks and unlocks by hand, the other functions hold a `lock_guard`, whose destructor unlocks
when an exception leaves the function (`unwind`). So an exception leaves the queue unlocked and as it
was exactly in the functions other than `add` (`exception_safe_iff`).

What `front()` and `pop_front()` do on an empty storage is undefined, and there the step is not
enabled.
-/

namespace SelfStudy.Threading

open Lib

universe u

namespace LockedQueue

/-- A call of a member function; `next` with a checker is `next true`. -/
inductive Call (T : Type u)
  | add (item : T)
  | readd (items : List T)
  | next (checked : Bool)
  | popFront
  | cancel
  | cancelled
  | empty
  deriving DecidableEq, Repr

/-- What a call returns; `next none` is `false`. -/
inductive Return (T : Type u)
  | void
  | next (result : Option T)
  | bool (b : Bool)
  deriving DecidableEq, Repr

inductive Outcome (T : Type u)
  | returned (r : Return T)
  | thrown
  deriving DecidableEq, Repr

/-- A thread, by the statement it is about to execute. -/
inductive Pc (T : Type u)
  | idle
  | lock (c : Call T)
  | add (item : T)
  | readd (items : List T)
  | nextTest (checked : Bool)
  | nextFront (checked : Bool)
  | process (result : T)
  | nextPop (result : T)
  | popFront
  | cancel
  | cancelled
  | empty
  | unlock (r : Return T)
  | unwind
  | ended (x : Outcome T)
  deriving DecidableEq, Repr

/-- How a statement ends; the last two are the answers of `check.Process`. -/
inductive Answer
  | ok
  | throws
  | accepts
  | rejects
  deriving DecidableEq, Repr

inductive Action (T : Type u)
  | call (i : ℕ) (c : Call T)
  | thread (i : ℕ) (ans : Answer)
  deriving DecidableEq, Repr

variable {T : Type u}

/-- The first statement after the lock was taken. -/
def Call.enter : Call T → Pc T
  | .add item => .add item
  | .readd items => .readd items
  | .next checked => .nextTest checked
  | .popFront => .popFront
  | .cancel => .cancel
  | .cancelled => .cancelled
  | .empty => .empty

namespace Pc

/-- The statements executed holding `_lock`. -/
def inSection : Pc T → Bool
  | .idle | .lock _ | .ended _ => false
  | _ => true

/-- The thread is in its section, and has not changed `_queue` there. -/
def clean : Pc T → Bool
  | .idle | .lock _ | .ended _ | .unlock _ => false
  | _ => true

/-- The thread is in no call. -/
def free : Pc T → Bool
  | .idle | .ended _ => true
  | _ => false

end Pc

end LockedQueue

open LockedQueue

/-- The members and the threads. `entered` is what the last thread to take the lock found in `_queue`,
and is not in the source. -/
structure LockedQueue (T : Type u) where
  lock : Option ℕ
  queue : List T
  canceled : Bool
  threads : List (Pc T)
  entered : List T
  deriving DecidableEq, Repr

namespace LockedQueue

variable {T : Type u}

/-- A queue with any content, and `n` threads that use it. -/
def initial (n : ℕ) (queue : List T) : LockedQueue T where
  lock := none
  queue := queue
  canceled := false
  threads := List.replicate n .idle
  entered := queue

@[simps] def setThread (s : LockedQueue T) (i : ℕ) (pc : Pc T) : LockedQueue T :=
  { s with threads := s.threads.set i pc }

@[simps] def setQueue (s : LockedQueue T) (queue : List T) : LockedQueue T := { s with queue := queue }

@[simps] def unlocked (s : LockedQueue T) : LockedQueue T := { s with lock := none }

/-- One statement of thread `i`. -/
def statement (s : LockedQueue T) (i : ℕ) : Pc T → Answer → Option (LockedQueue T × Pc T)
  | .lock c, .ok =>
    if s.lock = none then some ({ s with lock := some i, entered := s.queue }, c.enter) else none
  | .add item, .ok => some (s.setQueue (s.queue ++ [item]), .unlock .void)
  | .add _, .throws => some (s, .ended .thrown)
  | .readd items, .ok => some (s.setQueue (items ++ s.queue), .unlock .void)
  | .readd _, .throws => some (s, .unwind)
  | .nextTest checked, .ok =>
    some (s, if s.queue.isEmpty then .unlock (.next none) else .nextFront checked)
  | .nextFront checked, .ok =>
    s.queue.head?.map fun result => (s, if checked then .process result else .nextPop result)
  | .nextFront _, .throws => some (s, .unwind)
  | .process result, .accepts => some (s, .nextPop result)
  | .process _, .rejects => some (s, .unlock (.next none))
  | .process _, .throws => some (s, .unwind)
  | .nextPop result, .ok =>
    if s.queue.isEmpty then none else some (s.setQueue s.queue.tail, .unlock (.next (some result)))
  | .popFront, .ok =>
    if s.queue.isEmpty then none else some (s.setQueue s.queue.tail, .unlock .void)
  | .cancel, .ok => some ({ s with canceled := true }, .unlock .void)
  | .cancelled, .ok => some (s, .unlock (.bool s.canceled))
  | .empty, .ok => some (s, .unlock (.bool s.queue.isEmpty))
  | .unlock r, .ok => some (s.unlocked, .ended (.returned r))
  | .unwind, .ok => some (s.unlocked, .ended .thrown)
  | _, _ => none

def step (s : LockedQueue T) : Action T → Option (LockedQueue T)
  | .call i c =>
    if s.threads[i]?.map Pc.free = some true then some (s.setThread i (.lock c)) else none
  | .thread i ans =>
    s.threads[i]?.bind fun pc => (s.statement i pc ans).map fun x => x.1.setThread i x.2

/-! ## What a step can do -/

/-- The statements by what they do. -/
inductive Statement (s : LockedQueue T) (i : ℕ) : Pc T → Answer → LockedQueue T → Pc T → Prop
  | lock {c} (hl : s.lock = none) :
    Statement s i (.lock c) .ok { s with lock := some i, entered := s.queue } c.enter
  | pushed {item} :
    Statement s i (.add item) .ok (s.setQueue (s.queue ++ [item])) (.unlock .void)
  | pushThrows {item} : Statement s i (.add item) .throws s (.ended .thrown)
  | inserted {items} :
    Statement s i (.readd items) .ok (s.setQueue (items ++ s.queue)) (.unlock .void)
  | insertThrows {items} : Statement s i (.readd items) .throws s .unwind
  | nothing {checked} (hq : s.queue = []) :
    Statement s i (.nextTest checked) .ok s (.unlock (.next none))
  | something {checked} (hq : s.queue ≠ []) : Statement s i (.nextTest checked) .ok s (.nextFront checked)
  | copied {checked result} (hq : s.queue.head? = some result) :
    Statement s i (.nextFront checked) .ok s (if checked then .process result else .nextPop result)
  | copyThrows {checked} : Statement s i (.nextFront checked) .throws s .unwind
  | accepted {result} : Statement s i (.process result) .accepts s (.nextPop result)
  | rejected {result} : Statement s i (.process result) .rejects s (.unlock (.next none))
  | checkThrows {result} : Statement s i (.process result) .throws s .unwind
  | popped {result} (hq : s.queue ≠ []) :
    Statement s i (.nextPop result) .ok (s.setQueue s.queue.tail) (.unlock (.next (some result)))
  | popFront (hq : s.queue ≠ []) :
    Statement s i .popFront .ok (s.setQueue s.queue.tail) (.unlock .void)
  | cancel : Statement s i .cancel .ok { s with canceled := true } (.unlock .void)
  | cancelled : Statement s i .cancelled .ok s (.unlock (.bool s.canceled))
  | empty : Statement s i .empty .ok s (.unlock (.bool s.queue.isEmpty))
  | unlock {r} : Statement s i (.unlock r) .ok s.unlocked (.ended (.returned r))
  | unwound : Statement s i .unwind .ok s.unlocked (.ended .thrown)

/-- The steps by what they do. -/
inductive Step (s : LockedQueue T) : Action T → LockedQueue T → Prop
  | call {i c pc} (hi : s.threads[i]? = some pc) (hpc : pc.free = true) :
    Step s (.call i c) (s.setThread i (.lock c))
  | thread {i ans pc s' pc'} (hi : s.threads[i]? = some pc) (h : Statement s i pc ans s' pc') :
    Step s (.thread i ans) (s'.setThread i pc')

variable {s s' : LockedQueue T} {i j : ℕ} {pc pc' : Pc T} {ans : Answer} {a : Action T}

theorem statement_cases {x : LockedQueue T × Pc T} (h : s.statement i pc ans = some x) :
    Statement s i pc ans x.1 x.2 := by
  cases pc <;> cases ans <;> try cases (show none = some x from h)
  case lock.ok c =>
    obtain ⟨hl, h⟩ := Option.ite_none_right_eq_some.mp h
    exact Option.some.inj h ▸ .lock hl
  case add.ok => exact Option.some.inj h ▸ .pushed
  case add.throws => exact Option.some.inj h ▸ .pushThrows
  case readd.ok => exact Option.some.inj h ▸ .inserted
  case readd.throws => exact Option.some.inj h ▸ .insertThrows
  case nextTest.ok checked =>
    obtain rfl := Option.some.inj h
    by_cases hq : s.queue = []
    · simpa only [hq, List.isEmpty_nil, if_true] using Statement.nothing hq
    · simpa only [hq, List.isEmpty_iff, if_false] using Statement.something hq
  case nextFront.ok checked =>
    obtain ⟨result, hq, rfl⟩ := Option.map_eq_some_iff.mp h
    exact .copied hq
  case nextFront.throws => exact Option.some.inj h ▸ .copyThrows
  case process.accepts => exact Option.some.inj h ▸ .accepted
  case process.rejects => exact Option.some.inj h ▸ .rejected
  case process.throws => exact Option.some.inj h ▸ .checkThrows
  case nextPop.ok =>
    obtain ⟨hq, h⟩ := Option.ite_none_left_eq_some.mp h
    exact Option.some.inj h ▸ .popped (by simpa using hq)
  case popFront.ok =>
    obtain ⟨hq, h⟩ := Option.ite_none_left_eq_some.mp h
    exact Option.some.inj h ▸ .popFront (by simpa using hq)
  case cancel.ok => exact Option.some.inj h ▸ .cancel
  case cancelled.ok => exact Option.some.inj h ▸ .cancelled
  case empty.ok => exact Option.some.inj h ▸ .empty
  case unlock.ok => exact Option.some.inj h ▸ .unlock
  case unwind.ok => exact Option.some.inj h ▸ .unwound

/-- **Inversion.** -/
theorem step_cases (h : s.step a = some s') : Step s a s' := by
  cases a with
  | call i c =>
    obtain ⟨hi, h⟩ := Option.ite_none_right_eq_some.mp h
    obtain ⟨pc, hi, hpc⟩ := Option.map_eq_some_iff.mp hi
    exact Option.some.inj h ▸ .call hi hpc
  | thread i ans =>
    obtain ⟨pc, hi, h⟩ := Option.bind_eq_some_iff.mp h
    obtain ⟨⟨s₁, pc'⟩, hx, rfl⟩ := Option.map_eq_some_iff.mp h
    exact .thread hi (statement_cases hx)

/-- What a statement does to the lock. -/
inductive LockMove (i : ℕ) (s : LockedQueue T) (pc : Pc T) (s' : LockedQueue T) (pc' : Pc T) : Prop
  | take (hl : s.lock = none) (hl' : s'.lock = some i) (hpc : pc.inSection = false)
    (hpc' : pc'.inSection = true)
  | stay (hl : s'.lock = s.lock) (hpc : pc.inSection = true) (hpc' : pc'.inSection = true)
  | release (hl : s'.lock = none) (hpc : pc.inSection = true) (hpc' : pc'.inSection = false)
  | leak {item : T} (hl : s'.lock = s.lock) (hpc : pc = .add item) (hpc' : pc' = .ended .thrown)

theorem Statement.threads_eq (h : Statement s i pc ans s' pc') : s'.threads = s.threads := by
  cases h <;> rfl

theorem Statement.lockMove (h : Statement s i pc ans s' pc') : LockMove i s pc s' pc' := by
  cases h with
  | @lock c hl => exact .take hl rfl rfl (by cases c <;> rfl)
  | pushThrows => exact .leak rfl rfl rfl
  | unlock | unwound => exact .release rfl rfl rfl
  | @copied checked result hq => exact .stay rfl rfl (by cases checked <;> rfl)
  | pushed | inserted | insertThrows | nothing | something | copyThrows | accepted | rejected
  | checkThrows | popped | popFront | cancel | cancelled | empty => exact .stay rfl rfl rfl

/-- A thread that has not changed the queue has just taken the lock, or it had not before. -/
theorem Statement.clean (h : Statement s i pc ans s' pc') (hpc' : pc'.clean = true) :
    s'.queue = s'.entered ∨
      pc.clean = true ∧ s'.queue = s.queue ∧ s'.entered = s.entered := by
  cases h with
  | lock => exact .inl rfl
  | insertThrows | something | copied | copyThrows | accepted | checkThrows =>
    exact .inr ⟨rfl, rfl, rfl⟩
  | pushed | pushThrows | inserted | nothing | rejected | popped | popFront | cancel | cancelled
  | empty | unlock | unwound => cases hpc'

/-! ## The lock -/

/-- A thread in its section has the lock. -/
def Owned (s : LockedQueue T) : Prop :=
  ∀ (i : ℕ) (pc : Pc T), s.threads[i]? = some pc → pc.inSection = true → s.lock = some i

theorem owned_initial (n : ℕ) (queue : List T) : Owned (initial n queue) := by
  intro i pc hi hpc
  rw [(List.mem_replicate.mp (List.mem_of_getElem? hi)).2] at hpc
  cases hpc

/-- While a thread makes a step, no other one is in its section. -/
theorem Owned.alone (h : Owned s) (hi : s.threads[i]? = some pc) (hm : LockMove i s pc s' pc')
    {x : Pc T} (hj : s.threads[j]? = some x) (hx : x.inSection = true) : j = i := by
  have hlj := h j x hj hx
  cases hm with
  | take hl =>
    rw [hl] at hlj
    cases hlj
  | stay hl hpc | release hl hpc => exact Option.some.inj (hlj.symm.trans (h i pc hi hpc))
  | leak hl hpc => exact Option.some.inj (hlj.symm.trans (h i pc hi (hpc ▸ rfl)))

theorem Owned.step (h : Owned s) (hs : Step s a s') : Owned s' := by
  cases hs with
  | @call i c pc hi hpc =>
    intro j x hj hx
    rcases mem_of_getElem?_set hj with ⟨-, rfl⟩ | ⟨-, hj⟩
    · cases hx
    · exact h j x hj hx
  | @thread i ans pc s₁ pc' hi hst =>
    intro j x hj hx
    have hm := hst.lockMove
    rw [setThread_threads, hst.threads_eq] at hj
    rcases mem_of_getElem?_set hj with ⟨rfl, rfl⟩ | ⟨hij, hj⟩
    · cases hm with
      | take hl hl' => exact hl'
      | stay hl hpc => exact hl.trans (h _ _ hi hpc)
      | release hl hpc hpc' =>
        rw [hpc'] at hx
        cases hx
      | leak hl hpc hpc' =>
        rw [hpc'] at hx
        cases hx
    · exact absurd (h.alone hi hm hj hx) hij

/-- A thread that has not changed the queue sees what it has found. -/
def Untouched (s : LockedQueue T) : Prop :=
  ∀ (i : ℕ) (pc : Pc T), s.threads[i]? = some pc → pc.clean = true → s.queue = s.entered

theorem Pc.inSection_of_clean (h : Pc.clean pc = true) : Pc.inSection pc = true := by
  cases pc <;> first | rfl | cases h

theorem Untouched.step (h : Untouched s) (ho : Owned s) (hs : Step s a s') : Untouched s' := by
  cases hs with
  | @call i c pc hi hpc =>
    intro j x hj hx
    rcases mem_of_getElem?_set hj with ⟨-, rfl⟩ | ⟨-, hj⟩
    · cases hx
    · exact h j x hj hx
  | @thread i ans pc s₁ pc' hi hst =>
    intro j x hj hx
    rw [setThread_threads, hst.threads_eq] at hj
    rcases mem_of_getElem?_set hj with ⟨rfl, rfl⟩ | ⟨hij, hj⟩
    · rcases hst.clean hx with hq | ⟨hpc, hq, he⟩
      · exact hq
      · exact hq.trans ((h _ _ hi hpc).trans he.symm)
    · exact absurd (ho.alone hi hst.lockMove hj (Pc.inSection_of_clean hx)) hij

/-- The queue and any number of threads. -/
def machine : Machine (LockedQueue T) (Action T) where
  init s := ∃ n queue, s = initial n queue
  step := step

theorem reachable_owned (h : machine.Reachable s) : Owned s ∧ Untouched s := by
  refine h.invariant (P := fun s => Owned s ∧ Untouched s) ?_ ?_
  · rintro s ⟨n, queue, rfl⟩
    exact ⟨owned_initial n queue, fun _ _ _ _ => rfl⟩
  · intro s a s' _ ⟨ho, hu⟩ _ hs
    exact ⟨ho.step (step_cases hs), hu.step ho (step_cases hs)⟩

/-! ## Exceptions -/

/-- **Exceptions leave the queue usable outside `add`.** With any number of threads and any content of
the queue, let an exception leave a member function. Then `_lock` is unlocked and `_queue` what the
call has found in it, exactly if the function is not `add`. -/
theorem exception_safe_iff (h : machine.Reachable s) (hs : s.step (.thread i ans) = some s')
    (hthrown : s'.threads[i]? = some (.ended .thrown)) :
    (s'.lock = none ∧ s'.queue = s'.entered) ↔ ∀ item, s.threads[i]? ≠ some (.add item) := by
  obtain ⟨ho, hu⟩ := reachable_owned h
  cases step_cases hs with
  | @thread i ans pc s₁ pc' hi hst =>
    have hlt : i < s₁.threads.length := by
      rw [hst.threads_eq]
      exact (List.getElem?_eq_some_iff.mp hi).1
    have hpc' : pc' = .ended .thrown := by
      rw [setThread_threads, List.getElem?_set_self hlt] at hthrown
      exact Option.some.inj hthrown
    subst hpc'
    generalize hx : Pc.ended Outcome.thrown = x at hst
    cases hst with
    | @pushThrows item =>
      -- `add` has no guard that would unlock
      refine iff_of_false ?_ fun h => h item hi
      rintro ⟨hl, -⟩
      have hown := ho i _ hi rfl
      rw [setThread_lock] at hl
      rw [hl] at hown
      cases hown
    | unwound =>
      refine iff_of_true ⟨rfl, hu i _ hi rfl⟩ fun item h => ?_
      rw [hi] at h
      cases h
    | @lock c => cases c <;> cases hx
    | @copied checked => cases checked <;> cases hx
    | pushed | inserted | insertThrows | nothing | something | copyThrows | accepted | rejected
    | checkThrows | popped | popFront | cancel | cancelled | empty | unlock => cases hx

/-- An exception leaves `push_back` in `add`. -/
def AddThrows (s : LockedQueue T) : Action T → Prop
  | .call _ _ => False
  | .thread i ans => ans = .throws ∧ ∃ item, s.threads[i]? = some (.add item)

/-- Where no exception leaves `add`, only a thread in its section has the lock: whatever else throws,
the others can go on. -/
theorem lock_exclusive (h : machine.ReachableIf (fun s a => ¬ AddThrows s a) s) :
    Monitor.Exclusive Pc.inSection s.lock s.threads := by
  refine h.invariant (P := fun s => Monitor.Exclusive Pc.inSection s.lock s.threads) ?_ ?_
  · rintro s ⟨n, queue, rfl⟩
    refine Monitor.exclusive_none fun pc hpc => ?_
    rw [(List.mem_replicate.mp hpc).2]
    rfl
  · intro s a s' _ hex hno hs
    cases step_cases hs with
    | @call i c pc hi hpc =>
      refine hex.set hi ?_
      cases pc <;> first | rfl | cases hpc
    | @thread i ans pc s₁ pc' hi hst =>
      show Monitor.Exclusive _ s₁.lock (s₁.threads.set i pc')
      rw [hst.threads_eq]
      cases hst.lockMove with
      | take hl hl' hpc hpc' =>
        rw [hl] at hex
        rw [hl']
        exact hex.acquire hi hpc'
      | stay hl hpc hpc' =>
        rw [hl]
        exact hex.set hi (hpc'.trans hpc.symm)
      | release hl hpc hpc' =>
        rw [hex.lock_eq hi hpc] at hex
        rw [hl]
        exact hex.release hpc'
      | leak hl hpc hpc' =>
        subst hpc hpc'
        refine absurd ⟨?_, _, hi⟩ hno
        cases hst
        rfl

/-- `next` on a queue of one item whose copy throws. -/
theorem next_exception_safe : ∃ s s' : LockedQueue ℕ,
    machine.run (initial 1 [7])
      [.call 0 (.next false), .thread 0 .ok, .thread 0 .ok, .thread 0 .throws] = some s ∧
    s.step (.thread 0 .ok) = some s' ∧ s'.threads[0]? = some (.ended .thrown) ∧
    s'.lock = none ∧ s'.queue = s'.entered ∧ s'.entered = [7] := by
  obtain ⟨s, s', hrun, hstep, hended, hentered, hpc⟩ : ∃ s s' : LockedQueue ℕ,
      machine.run (initial 1 [7])
        [.call 0 (.next false), .thread 0 .ok, .thread 0 .ok, .thread 0 .throws] = some s ∧
      s.step (.thread 0 .ok) = some s' ∧ s'.threads[0]? = some (.ended .thrown) ∧
      s'.entered = [7] ∧ s.threads[0]? = some .unwind := ⟨_, _, rfl, rfl, rfl, rfl, rfl⟩
  have hreach := Machine.Reachable.run (M := machine) (.init ⟨1, [7], rfl⟩) hrun
  have hnot : ∀ item, s.threads[0]? ≠ some (.add item) := fun item h => by
    rw [hpc] at h
    cases h
  obtain ⟨hlock, hqueue⟩ := (exception_safe_iff hreach hstep hended).mpr hnot
  exact ⟨s, s', hrun, hstep, hended, hlock, hqueue, hentered⟩

/-- A `push_back` that throws leaves `add` with the lock, and the other thread blocks for ever. -/
theorem add_leaks_lock : ∃ s s' s'' : LockedQueue ℕ,
    machine.run (initial 2 []) [.call 0 (.add 7), .thread 0 .ok] = some s ∧
    s.step (.thread 0 .throws) = some s' ∧ s'.threads[0]? = some (.ended .thrown) ∧
    s'.lock = some 0 ∧ s'.step (.call 1 .empty) = some s'' ∧ ∀ ans, s''.step (.thread 1 ans) = none := by
  refine ⟨_, _, _, rfl, rfl, rfl, rfl, rfl, fun ans => ?_⟩
  cases ans <;> rfl

end LockedQueue

end SelfStudy.Threading
