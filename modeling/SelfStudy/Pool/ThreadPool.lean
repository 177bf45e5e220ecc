import SelfStudy.Lib.Count
import SelfStudy.Lib.Machine
import Mathlib.Tactic.Simps.Basic

/-!
# The thread pool

`ThreadPool.h` as a transition system. The threads are the one that constructs the pool and later
calls `stop()`, the workers of `pool_`, and one entry of `commits` for each call of `commit`, whose
position is the number of its task. A step is one access to shared data: an atomic load or store,
an operation on `cv_mt_` or `cv_lock_`, or an access to `tasks_` under the mutex together with the
release that follows it.

The wait with a predicate evaluates the predicate holding the mutex (`pred`), then, as a step of its
own, releases the mutex and falls asleep (`blocking`). A notification turns a sleeper into a worker
that has to take the mutex again (`woken`); notifications do not last, and `stop()` takes no mutex.
-/

namespace SelfStudy.Pool

/-- A worker, by the statement of `start` it is about to execute; `t` is the task it holds. -/
inductive WorkerPc
  | loop
  | lock
  | pred
  | blocking
  | asleep
  | woken
  | take
  | decrement (t : ℕ)
  | run (t : ℕ)
  | increment
  | exited
  deriving DecidableEq, Repr

/-- A call of `commit`; `accepted` has returned a valid future and `refused` an empty one. -/
inductive CommitPc
  | check
  | lock
  | push
  | notify
  | accepted
  | refused
  deriving DecidableEq, Repr

/-- The owner: the loop of `start()` in the constructor, then `stop()`. -/
inductive OwnerPc
  | start (i : ℕ)
  | ready
  | notifyAll
  | join (i : ℕ)
  | joined
  deriving DecidableEq, Repr

/-- The holder of `cv_mt_`. -/
inductive Holder
  | worker (i : ℕ)
  | commit (t : ℕ)
  deriving DecidableEq, Repr

/-- The members of `ThreadPool` and where its threads stand. `ran` lists the executions, each a
task and the worker that ran it, and is not in the source. -/
structure ThreadPool where
  stop : Bool
  tasks : List ℕ
  mutex : Option Holder
  threadNum : ℤ
  pool : List WorkerPc
  commits : List CommitPc
  owner : OwnerPc
  ran : List (ℕ × ℕ)
  deriving DecidableEq, Repr

inductive Action
  | worker (i : ℕ)
  | spurious (i : ℕ)
  | call
  | commit (t : ℕ) (wake : Option ℕ)
  | owner
  deriving DecidableEq, Repr

/-- The number of workers that the constructor starts. -/
def poolSize (num : ℕ) : ℕ := if num ≤ 1 then 2 else num

theorem poolSize_pos (num : ℕ) : 0 < poolSize num := by
  unfold poolSize
  split_ifs <;> omega

namespace ThreadPool

/-- The members after the initialisers of the constructor. -/
def initial (num : ℕ) : ThreadPool where
  stop := false
  tasks := []
  mutex := none
  threadNum := poolSize num
  pool := []
  commits := []
  owner := .start 0
  ran := []

@[simps] def setWorker (s : ThreadPool) (i : ℕ) (pc : WorkerPc) : ThreadPool :=
  { s with pool := s.pool.set i pc }

@[simps] def setCommit (s : ThreadPool) (t : ℕ) (pc : CommitPc) : ThreadPool :=
  { s with commits := s.commits.set t pc }

@[simps] def setMutex (s : ThreadPool) (h : Option Holder) : ThreadPool := { s with mutex := h }

/-- The next step of worker `i`. -/
def workerStep (s : ThreadPool) (i : ℕ) : WorkerPc → Option ThreadPool
  | .loop => some (s.setWorker i (if s.stop then .exited else .lock))
  | .lock => if s.mutex = none then some ((s.setMutex (some (.worker i))).setWorker i .pred) else none
  | .pred => some (s.setWorker i (if s.stop || !s.tasks.isEmpty then .take else .blocking))
  | .blocking => some ((s.setMutex none).setWorker i .asleep)
  | .asleep => none
  | .woken => if s.mutex = none then some ((s.setMutex (some (.worker i))).setWorker i .pred) else none
  | .take =>
    match s.tasks with
    | [] => some ((s.setMutex none).setWorker i .exited)
    | t :: ts => some ({ s with tasks := ts, mutex := none }.setWorker i (.decrement t))
  | .decrement t => some ({ s with threadNum := s.threadNum - 1 }.setWorker i (.run t))
  | .run t => some ({ s with ran := s.ran ++ [(t, i)] }.setWorker i .increment)
  | .increment => some ({ s with threadNum := s.threadNum + 1 }.setWorker i .loop)
  | .exited => none

/-- The next step of the call of `commit` for task `t`; `wake` is the sleeper that `notify_one`
picks, if there is one. -/
def commitStep (s : ThreadPool) (t : ℕ) (wake : Option ℕ) : CommitPc → Option ThreadPool
  | .check => some (s.setCommit t (if s.stop then .refused else .lock))
  | .lock => if s.mutex = none then some ((s.setMutex (some (.commit t))).setCommit t .push) else none
  | .push => some ({ s with tasks := s.tasks ++ [t], mutex := none }.setCommit t .notify)
  | .notify =>
    match wake with
    | some i =>
      if s.pool[i]? = some .asleep then some ((s.setWorker i .woken).setCommit t .accepted) else none
    | none => if .asleep ∈ s.pool then none else some (s.setCommit t .accepted)
  | .accepted => none
  | .refused => none

/-- `notify_all` on one worker. -/
def wake : WorkerPc → WorkerPc
  | .asleep => .woken
  | pc => pc

/-- The next step of the owner. -/
def ownerStep (s : ThreadPool) : Option ThreadPool :=
  match s.owner with
  | .start i =>
    if (i : ℤ) < s.threadNum then some { s with pool := s.pool ++ [.loop], owner := .start (i + 1) }
    else some { s with owner := .ready }
  | .ready => some { s with stop := true, owner := .notifyAll }
  | .notifyAll => some { s with pool := s.pool.map wake, owner := .join 0 }
  | .join i =>
    match s.pool[i]? with
    | none => some { s with owner := .joined }
    | some pc => if pc = .exited then some { s with owner := .join (i + 1) } else none
  | .joined => none

/-- One step. `commit` is reachable through `instance()` only, hence after the constructor. -/
def step (s : ThreadPool) : Action → Option ThreadPool
  | .worker i => s.pool[i]?.bind (s.workerStep i)
  | .spurious i => if s.pool[i]? = some .asleep then some (s.setWorker i .woken) else none
  | .call =>
    match s.owner with
    | .start _ => none
    | _ => some { s with commits := s.commits ++ [.check] }
  | .commit t wake => s.commits[t]?.bind (s.commitStep t wake)
  | .owner => s.ownerStep

/-! ## What a step can do -/

/-- The steps by what they do. -/
inductive Step (s : ThreadPool) : Action → ThreadPool → Prop
  | leave {i} (hi : s.pool[i]? = some .loop) (hs : s.stop = true) :
    Step s (.worker i) (s.setWorker i .exited)
  | enter {i} (hi : s.pool[i]? = some .loop) (hs : s.stop = false) :
    Step s (.worker i) (s.setWorker i .lock)
  | lock {i pc} (hi : s.pool[i]? = some pc) (hpc : pc = .lock ∨ pc = .woken) (hm : s.mutex = none) :
    Step s (.worker i) ((s.setMutex (some (.worker i))).setWorker i .pred)
  | proceed {i} (hi : s.pool[i]? = some .pred) (h : s.stop = true ∨ s.tasks ≠ []) :
    Step s (.worker i) (s.setWorker i .take)
  | block {i} (hi : s.pool[i]? = some .pred) (hs : s.stop = false) (ht : s.tasks = []) :
    Step s (.worker i) (s.setWorker i .blocking)
  | sleep {i} (hi : s.pool[i]? = some .blocking) :
    Step s (.worker i) ((s.setMutex none).setWorker i .asleep)
  | quit {i} (hi : s.pool[i]? = some .take) (ht : s.tasks = []) :
    Step s (.worker i) ((s.setMutex none).setWorker i .exited)
  | pop {i t ts} (hi : s.pool[i]? = some .take) (ht : s.tasks = t :: ts) :
    Step s (.worker i) ({ s with tasks := ts, mutex := none }.setWorker i (.decrement t))
  | decrement {i t} (hi : s.pool[i]? = some (.decrement t)) :
    Step s (.worker i) ({ s with threadNum := s.threadNum - 1 }.setWorker i (.run t))
  | run {i t} (hi : s.pool[i]? = some (.run t)) :
    Step s (.worker i) ({ s with ran := s.ran ++ [(t, i)] }.setWorker i .increment)
  | increment {i} (hi : s.pool[i]? = some .increment) :
    Step s (.worker i) ({ s with threadNum := s.threadNum + 1 }.setWorker i .loop)
  | spurious {i} (hi : s.pool[i]? = some .asleep) : Step s (.spurious i) (s.setWorker i .woken)
  | call (ho : ∀ i, s.owner ≠ .start i) : Step s .call { s with commits := s.commits ++ [.check] }
  | refuse {t w} (ht : s.commits[t]? = some .check) (hs : s.stop = true) :
    Step s (.commit t w) (s.setCommit t .refused)
  | checked {t w} (ht : s.commits[t]? = some .check) (hs : s.stop = false) :
    Step s (.commit t w) (s.setCommit t .lock)
  | commitLock {t w} (ht : s.commits[t]? = some .lock) (hm : s.mutex = none) :
    Step s (.commit t w) ((s.setMutex (some (.commit t))).setCommit t .push)
  | push {t w} (ht : s.commits[t]? = some .push) :
    Step s (.commit t w) ({ s with tasks := s.tasks ++ [t], mutex := none }.setCommit t .notify)
  | notify {t i} (ht : s.commits[t]? = some .notify) (hi : s.pool[i]? = some .asleep) :
    Step s (.commit t (some i)) ((s.setWorker i .woken).setCommit t .accepted)
  | notifyNone {t} (ht : s.commits[t]? = some .notify) (hi : .asleep ∉ s.pool) :
    Step s (.commit t none) (s.setCommit t .accepted)
  | spawn {i} (ho : s.owner = .start i) (hn : (i : ℤ) < s.threadNum) :
    Step s .owner { s with pool := s.pool ++ [.loop], owner := .start (i + 1) }
  | started {i} (ho : s.owner = .start i) (hn : ¬ (i : ℤ) < s.threadNum) :
    Step s .owner { s with owner := .ready }
  | store (ho : s.owner = .ready) : Step s .owner { s with stop := true, owner := .notifyAll }
  | notifyAll (ho : s.owner = .notifyAll) :
    Step s .owner { s with pool := s.pool.map wake, owner := .join 0 }
  | join {i} (ho : s.owner = .join i) (hi : s.pool[i]? = some .exited) :
    Step s .owner { s with owner := .join (i + 1) }
  | joined {i} (ho : s.owner = .join i) (hi : s.pool[i]? = none) :
    Step s .owner { s with owner := .joined }

theorem step_worker {s s' : ThreadPool} {i : ℕ} (h : s.step (.worker i) = some s') :
    Step s (.worker i) s' := by
  obtain ⟨pc, hi, h⟩ := Option.bind_eq_some_iff.mp h
  cases pc with
  | loop =>
    obtain rfl := Option.some.inj h
    cases hs : s.stop
    · exact .enter hi hs
    · exact .leave hi hs
  | lock =>
    simp only [workerStep, Option.ite_none_right_eq_some, Option.some.injEq] at h
    obtain ⟨hm, rfl⟩ := h
    exact .lock hi (.inl rfl) hm
  | pred =>
    obtain rfl := Option.some.inj h
    cases hs : s.stop with
    | true => exact .proceed hi (.inl hs)
    | false =>
      cases ht : s.tasks with
      | nil => exact .block hi hs ht
      | cons t ts => exact .proceed hi (.inr (by simp [ht]))
  | blocking => exact Option.some.inj h ▸ .sleep hi
  | asleep => cases h
  | woken =>
    simp only [workerStep, Option.ite_none_right_eq_some, Option.some.injEq] at h
    obtain ⟨hm, rfl⟩ := h
    exact .lock hi (.inr rfl) hm
  | take =>
    simp only [workerStep] at h
    split at h <;> rename_i ht <;> obtain rfl := Option.some.inj h
    · exact .quit hi ht
    · exact .pop hi ht
  | decrement t => exact Option.some.inj h ▸ .decrement hi
  | run t => exact Option.some.inj h ▸ .run hi
  | increment => exact Option.some.inj h ▸ .increment hi
  | exited => cases h

theorem step_commit {s s' : ThreadPool} {t : ℕ} {w : Option ℕ}
    (h : s.step (.commit t w) = some s') : Step s (.commit t w) s' := by
  obtain ⟨pc, ht, h⟩ := Option.bind_eq_some_iff.mp h
  cases pc with
  | check =>
    obtain rfl := Option.some.inj h
    cases hs : s.stop
    · exact .checked ht hs
    · exact .refuse ht hs
  | lock =>
    simp only [commitStep, Option.ite_none_right_eq_some, Option.some.injEq] at h
    obtain ⟨hm, rfl⟩ := h
    exact .commitLock ht hm
  | push => exact Option.some.inj h ▸ .push ht
  | notify =>
    cases w with
    | none =>
      simp only [commitStep, Option.ite_none_left_eq_some, Option.some.injEq] at h
      obtain ⟨hm, rfl⟩ := h
      exact .notifyNone ht hm
    | some i =>
      simp only [commitStep, Option.ite_none_right_eq_some, Option.some.injEq] at h
      obtain ⟨hm, rfl⟩ := h
      exact .notify ht hm
  | accepted => cases h
  | refused => cases h

theorem step_owner {s s' : ThreadPool} (h : s.step .owner = some s') : Step s .owner s' := by
  simp only [step, ownerStep] at h
  split at h <;> rename_i ho
  · split_ifs at h with hn <;> obtain rfl := Option.some.inj h
    · exact .spawn ho hn
    · exact .started ho hn
  · exact Option.some.inj h ▸ .store ho
  · exact Option.some.inj h ▸ .notifyAll ho
  · split at h <;> rename_i hi
    · exact Option.some.inj h ▸ .joined ho hi
    · split_ifs at h with hpc
      exact Option.some.inj h ▸ .join ho (hpc ▸ hi)
  · cases h

/-- **Inversion.** -/
theorem step_cases {s s' : ThreadPool} {a : Action} (h : s.step a = some s') : Step s a s' := by
  cases a with
  | worker i => exact step_worker h
  | spurious i =>
    simp only [step, Option.ite_none_right_eq_some, Option.some.injEq] at h
    obtain ⟨hi, rfl⟩ := h
    exact .spurious hi
  | call =>
    simp only [step] at h
    split at h
    · cases h
    · rename_i ho
      exact Option.some.inj h ▸ .call ho
  | commit t w => exact step_commit h
  | owner => exact step_owner h

end ThreadPool

/-- The pool whose constructor was called with `num`. -/
def threadPool (num : ℕ) : Lib.Machine ThreadPool Action where
  init s := s = .initial num
  step := ThreadPool.step

end SelfStudy.Pool
