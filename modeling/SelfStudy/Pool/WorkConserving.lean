import SelfStudy.Pool.Invariants

/-!
# The thread pool is work conserving

A sleeping worker is one that the queue can do without: as long as `stop_` is false and somebody
sleeps, each task in `tasks_` has a call of `commit` that still owes its `notify_one`, or a worker
that is awake and will look at the queue before it sleeps.

A notification may reach a worker whose task is gone by then, and may find nobody asleep. Neither
breaks the count: the first makes one worker more awake, and after the second nobody sleeps. A
worker falls asleep only with the queue empty, since it has held `cv_mt_` from its look at the queue
on.
-/

namespace SelfStudy.Pool

open Lib

/-- The worker is awake and holds no task. -/
def WorkerPc.free : WorkerPc → Bool
  | .asleep | .decrement _ | .run _ | .exited => false
  | _ => true

namespace ThreadPool

variable {s s' : ThreadPool} {a : Action} {i : ℕ} {pc x : WorkerPc}

/-- The commits and the workers that the tasks in the queue can count on. -/
def supply (s : ThreadPool) : ℕ := s.commits.countP (· = .notify) + s.pool.countP WorkerPc.free

/-- A worker about to sleep has seen the queue empty, and while one sleeps the supply suffices. -/
structure Supplied (s : ThreadPool) : Prop where
  blocking : .blocking ∈ s.pool → s.tasks = []
  supply : s.stop = false → .asleep ∈ s.pool → s.tasks.length ≤ s.supply

/-- Nothing in the queue, so nothing is to be supplied. -/
theorem Supplied.of_empty (h : s.tasks = []) : s.Supplied where
  blocking _ := h
  supply _ _ := by simp [h]

/-- Once `stop_` is set nothing is to be supplied either. -/
theorem Supplied.of_stop (hs : s.stop = true) (hb : .blocking ∈ s.pool → s.tasks = []) :
    s.Supplied where
  blocking := hb
  supply hf := by
    rw [hs] at hf
    cases hf

theorem Supplied.congr (h : s.Supplied) (hpool : s'.pool = s.pool) (htasks : s'.tasks = s.tasks)
    (hstop : s'.stop = false → s.stop = false) (hcommits : s.supply ≤ s'.supply) : s'.Supplied where
  blocking hb := htasks.trans (h.blocking (hpool ▸ hb))
  supply hs ha := htasks ▸ (h.supply (hstop hs) (hpool ▸ ha)).trans hcommits

/-! ## The steps of a worker -/

theorem supply_setWorker (hi : s.pool[i]? = some pc) (x : WorkerPc) :
    (s.setWorker i x).supply + (if pc.free then 1 else 0) =
      s.supply + (if x.free then 1 else 0) := by
  have hcount := countP_set_add WorkerPc.free hi x
  unfold supply
  rw [setWorker_pool, setWorker_commits]
  omega

/-- A worker goes on without falling asleep and stays as free as it was. -/
theorem Supplied.setWorker (h : s.Supplied) (hi : s.pool[i]? = some pc) (hx : x ≠ .asleep)
    (hb : x = .blocking → s.tasks = [])
    (hfree : (if pc.free then 1 else 0) ≤ if x.free then 1 else 0) :
    (s.setWorker i x).Supplied where
  blocking hmem := by
    rcases List.mem_or_eq_of_mem_set hmem with hmem | he
    · exact h.blocking hmem
    · exact hb he.symm
  supply hs hmem := by
    have hmem : .asleep ∈ s.pool := by
      rcases List.mem_or_eq_of_mem_set hmem with hmem | he
      · exact hmem
      · exact absurd he.symm hx
    have hle := h.supply hs hmem
    have hset := supply_setWorker hi x
    rw [setWorker_tasks]
    omega

theorem Supplied.pop {t : ℕ} {ts : List ℕ} (h : s.Supplied) (hi : s.pool[i]? = some .take)
    (ht : s.tasks = t :: ts) :
    ({ s with tasks := ts, mutex := none }.setWorker i (.decrement t)).Supplied where
  blocking hmem := by
    rcases List.mem_or_eq_of_mem_set hmem with hmem | he
    · have := h.blocking hmem
      rw [ht] at this
      cases this
    · cases he
  supply hs hmem := by
    have hmem : .asleep ∈ s.pool := by
      rcases List.mem_or_eq_of_mem_set hmem with hmem | he
      · exact hmem
      · cases he
    have hle := h.supply hs hmem
    have hset : ({ s with tasks := ts, mutex := none }.setWorker i (.decrement t)).supply + 1 =
        s.supply := supply_setWorker (s := { s with tasks := ts, mutex := none }) hi (.decrement t)
    rw [ht, List.length_cons] at hle
    show ts.length ≤ _
    omega

/-! ## The steps of a call of `commit` -/

theorem supply_setCommit {t : ℕ} {pc : CommitPc} (ht : s.commits[t]? = some pc) (x : CommitPc) :
    (s.setCommit t x).supply + (if pc = .notify then 1 else 0) =
      s.supply + (if x = .notify then 1 else 0) := by
  have hcount := countP_set_add (fun c => decide (c = CommitPc.notify)) ht x
  simp only [decide_eq_true_eq] at hcount
  unfold supply
  rw [setCommit_pool, setCommit_commits]
  omega

/-- A call goes on without touching the queue. -/
theorem Supplied.setCommit {t : ℕ} {pc x : CommitPc} (h : s.Supplied)
    (ht : s.commits[t]? = some pc) (hpc : pc ≠ .notify) : (s.setCommit t x).Supplied := by
  have hset := supply_setCommit ht x
  rw [if_neg hpc] at hset
  exact h.congr rfl rfl id (by omega)

/-- The task that is pushed comes with a notification that is still owed. -/
theorem Supplied.push {t : ℕ} (h : s.Supplied) (he : s.Exclusive) (ht : s.commits[t]? = some .push) :
    ({ s with tasks := s.tasks ++ [t], mutex := none }.setCommit t .notify).Supplied where
  blocking hmem := by
    -- a worker that is about to sleep has the mutex, which this call holds
    obtain ⟨j, hj⟩ := List.mem_iff_getElem?.mp hmem
    have hworker := (he (.worker j)).mpr ⟨.blocking, hj, rfl⟩
    have hcommit := (he (.commit t)).mpr ht
    rw [hworker] at hcommit
    cases hcommit
  supply hs hmem := by
    have hle := h.supply hs hmem
    have hset : ({ s with tasks := s.tasks ++ [t], mutex := none }.setCommit t .notify).supply =
        s.supply + 1 :=
      supply_setCommit (s := { s with tasks := s.tasks ++ [t], mutex := none }) ht .notify
    show (s.tasks ++ [t]).length ≤ _
    rw [List.length_append, List.length_singleton]
    omega

/-- A notification that finds a sleeper makes a free worker of it. -/
theorem Supplied.notify {t : ℕ} (h : s.Supplied) (ht : s.commits[t]? = some .notify)
    (hi : s.pool[i]? = some .asleep) : ((s.setWorker i .woken).setCommit t .accepted).Supplied where
  blocking hmem := by
    rcases List.mem_or_eq_of_mem_set hmem with hmem | he
    · exact h.blocking hmem
    · cases he
  supply hs _ := by
    have hle := h.supply hs (List.mem_of_getElem? hi)
    have hworker : (s.setWorker i .woken).supply = s.supply + 1 := supply_setWorker hi .woken
    have hcommit : ((s.setWorker i .woken).setCommit t .accepted).supply + 1 =
        (s.setWorker i .woken).supply := supply_setCommit (s := s.setWorker i .woken) ht .accepted
    show s.tasks.length ≤ _
    omega

/-- A notification that finds nobody asleep is not needed. -/
theorem Supplied.notifyNone {t : ℕ} (h : s.Supplied) (hi : .asleep ∉ s.pool) :
    (s.setCommit t .accepted).Supplied where
  blocking := h.blocking
  supply _ ha := absurd ha hi

/-- A new worker is free. -/
theorem Supplied.spawn {o : OwnerPc} (h : s.Supplied) :
    { s with pool := s.pool ++ [WorkerPc.loop], owner := o }.Supplied where
  blocking hmem := by
    rcases List.mem_append.mp hmem with hmem | hmem
    · exact h.blocking hmem
    · cases List.mem_singleton.mp hmem
  supply hs hmem := by
    rcases List.mem_append.mp hmem with hmem | hmem
    · refine (h.supply hs hmem).trans ?_
      show _ ≤ s.commits.countP _ + (s.pool ++ [WorkerPc.loop]).countP _
      rw [List.countP_append]
      exact Nat.add_le_add_left (Nat.le_add_right ..) _
    · cases List.mem_singleton.mp hmem

theorem supplied_step (h : s.Supplied) (he : s.Exclusive) (hstop : s.stop = s.owner.stopping)
    (hs : Step s a s') : s'.Supplied := by
  cases hs with
  | leave hi hst =>
    refine .of_stop hst fun hb => ?_
    rcases List.mem_or_eq_of_mem_set hb with hb | hb
    · exact h.blocking hb
    · cases hb
  | enter hi => exact h.setWorker hi (by decide) (by simp) (by decide)
  | lock hi hpc =>
    refine Supplied.setWorker (s := s.setMutex _) (h.congr rfl rfl id le_rfl) hi (by decide)
      (by simp) ?_
    rcases hpc with rfl | rfl <;> decide
  | proceed hi => exact h.setWorker hi (by decide) (by simp) (by decide)
  | block hi hst ht => exact .of_empty ht
  | sleep hi => exact .of_empty (h.blocking (List.mem_of_getElem? hi))
  | quit hi ht => exact .of_empty ht
  | pop hi ht => exact h.pop hi ht
  | decrement hi =>
    exact Supplied.setWorker (s := { s with threadNum := s.threadNum - 1 })
      (h.congr rfl rfl id le_rfl) hi (by simp) (by simp) le_rfl
  | @run i t hi =>
    exact Supplied.setWorker (s := { s with ran := s.ran ++ [(t, i)] })
      (h.congr rfl rfl id le_rfl) hi (by simp) (by simp) (Nat.zero_le _)
  | increment hi =>
    exact Supplied.setWorker (s := { s with threadNum := s.threadNum + 1 })
      (h.congr rfl rfl id le_rfl) hi (by simp) (by simp) le_rfl
  | spurious hi => exact h.setWorker hi (by simp) (by simp) (Nat.zero_le _)
  | call =>
    refine h.congr rfl rfl id ?_
    show s.supply ≤ (s.commits ++ [CommitPc.check]).countP _ + s.pool.countP _
    rw [List.countP_append]
    exact Nat.add_le_add_right (Nat.le_add_right ..) _
  | refuse ht => exact h.setCommit ht (by simp)
  | checked ht => exact h.setCommit ht (by simp)
  | commitLock ht =>
    exact Supplied.setCommit (s := s.setMutex _) (h.congr rfl rfl id le_rfl) ht (by simp)
  | push ht => exact h.push he ht
  | notify ht hi => exact h.notify ht hi
  | notifyNone ht hi => exact h.notifyNone hi
  | spawn ho => exact h.spawn
  | started => exact h.congr rfl rfl id le_rfl
  | store => exact .of_stop rfl h.blocking
  | notifyAll ho =>
    refine .of_stop (hstop.trans (by rw [ho]; rfl)) fun hb => ?_
    obtain ⟨pc, hpc, hw⟩ := List.mem_map.mp hb
    cases pc <;> first | exact h.blocking hpc | cases hw
  | join => exact h.congr rfl rfl id le_rfl
  | joined => exact h.congr rfl rfl id le_rfl

end ThreadPool

theorem supplied_of_reachable {num : ℕ} {s : ThreadPool} (h : (threadPool num).Reachable s) :
    s.Supplied := by
  refine h.invariant (fun s hs => ?_) fun s a s' hr h _ hs => ?_
  · obtain rfl : s = .initial num := hs
    exact .of_empty rfl
  · have hinv := inv_of_reachable hr
    exact ThreadPool.supplied_step h hinv.exclusive hinv.stop_eq (ThreadPool.step_cases hs)

/-- **Work conserving.** While `stop_` is false and some worker sleeps, the tasks in the queue are at
most the calls of `commit` that have pushed and not notified yet and the workers that are awake and
hold no task. So no task waits while all the workers sleep and no notification is on its way. -/
theorem work_conserving (num : ℕ) :
    ∀ s, (threadPool num).Reachable s → s.stop = false → .asleep ∈ s.pool →
      s.tasks.length ≤ s.commits.countP (· = .notify) + s.pool.countP WorkerPc.free ∧
      ((∀ pc ∈ s.pool, pc = .asleep) → .notify ∉ s.commits → s.tasks = []) := by
  intro s hr hs ha
  have hle := (supplied_of_reachable hr).supply hs ha
  refine ⟨hle, fun hall hnone => ?_⟩
  have hcommits : s.commits.countP (· = .notify) = 0 := by
    refine List.countP_eq_zero.mpr fun c hc => ?_
    rw [decide_eq_true_eq]
    rintro rfl
    exact hnone hc
  have hworkers : s.pool.countP WorkerPc.free = 0 := by
    refine List.countP_eq_zero.mpr fun pc hpc => ?_
    rw [hall pc hpc]
    decide
  unfold ThreadPool.supply at hle
  rw [hcommits, hworkers] at hle
  exact List.eq_nil_of_length_eq_zero (Nat.le_zero.mp hle)

/-- Two workers sleep, one task is pushed and one notification wakes the first; a second task is
pushed, and its call has not notified yet. -/
theorem work_conserving_two : ∃ s : ThreadPool, s.tasks.length = 2 ∧ .asleep ∈ s.pool ∧
    s.tasks.length ≤ s.commits.countP (· = .notify) + s.pool.countP WorkerPc.free := by
  obtain ⟨s, hs, hstop, ha, ht⟩ : ∃ s, (threadPool 2).run (.initial 2)
      [.owner, .owner, .owner, .worker 0, .worker 0, .worker 0, .worker 0, .worker 1, .worker 1,
        .worker 1, .worker 1, .call, .call, .commit 0 none, .commit 0 none, .commit 0 none,
        .commit 0 (some 0), .commit 1 none, .commit 1 none, .commit 1 none] = some s ∧
      s.stop = false ∧ .asleep ∈ s.pool ∧ s.tasks.length = 2 := ⟨_, rfl, rfl, by decide, rfl⟩
  exact ⟨s, ht, ha, (work_conserving 2 s (Machine.Reachable.run (.init rfl) hs) hstop ha).1⟩

end SelfStudy.Pool
