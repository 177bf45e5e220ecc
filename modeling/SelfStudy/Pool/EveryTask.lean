import SelfStudy.Lib.Progress
import SelfStudy.Pool.IdleCount
import SelfStudy.Pool.WorkConserving

/-!
# Every task is run

As long as the pool is not stopped, the task of every call of `commit` is run in the end. What this
takes is that no thread stands still where it could go on (`Goes`), which for a thread before a
section of `cv_mt_` says that its wait for the mutex ends.

The argument is about the task's place in the queue. While it waits there, some worker is awake, or
a call of `commit` is about to wake one; a worker that is awake takes a task before it sleeps, since
it finds the queue not empty. So the task comes forward, is taken and is run.
-/

namespace SelfStudy.Pool

open Lib

/-- The worker is neither asleep nor about to be, and has not left its loop. -/
def WorkerPc.awake : WorkerPc → Bool
  | .blocking | .asleep | .exited => false
  | _ => true

/-- The steps of a worker up to the one in which it takes a task. -/
def WorkerPc.toTake : WorkerPc → ℕ
  | .take | .blocking | .asleep | .exited => 0
  | .pred => 1
  | .lock | .woken => 2
  | .loop => 3
  | .increment => 4
  | .run _ => 5
  | .decrement _ => 6

def CommitPc.toPush : CommitPc → ℕ
  | .check => 2
  | .lock => 1
  | _ => 0

namespace ThreadPool

variable {num : ℕ} {s s' : ThreadPool} {a : Action} {i k : ℕ} {pc : WorkerPc}

/-! ## What a step does to the queue and to one thread -/

/-- A step leaves the queue, adds a task at its end or takes the first one. -/
theorem tasks_of_step (hs : Step s a s') : s'.tasks = s.tasks ∨ (∃ t, s'.tasks = s.tasks ++ [t]) ∨
    ∃ (i t : ℕ), s.tasks = t :: s'.tasks ∧ s'.pool[i]? = some (WorkerPc.decrement t) := by
  cases hs with
  | push => exact .inr (.inl ⟨_, rfl⟩)
  | @pop i t ts hi ht =>
    have hlt : i < s.pool.length := (List.getElem?_eq_some_iff.mp hi).1
    exact .inr (.inr ⟨i, t, ht, List.getElem?_set_self hlt⟩)
  | _ => exact .inl rfl

/-- One entry of the pool after another or the same one is replaced. -/
theorem set_cases {j : ℕ} {y x : WorkerPc} (hi : s.pool[i]? = some pc) (hj : s.pool[j]? = some y) :
    (s.pool.set j x)[i]? = some pc ∨ y = pc ∧ (s.pool.set j x)[i]? = some x := by
  by_cases e : j = i
  · subst e
    have hlt : j < s.pool.length := (List.getElem?_eq_some_iff.mp hi).1
    exact .inr ⟨Option.some.inj (hj.symm.trans hi), List.getElem?_set_self hlt⟩
  · exact .inl ((List.getElem?_set_ne e).trans hi)

/-- A worker that is awake while a task waits stays where it is, comes closer to taking one or takes
one. -/
theorem awake_of_step (hI : s.Inv) (hi : s.pool[i]? = some pc) (hpc : pc.awake = true)
    (hstop : s'.stop = false) (hne : s.tasks ≠ []) (hs : Step s a s') :
    s'.pool[i]? = some pc ∨
      (∃ x, s'.pool[i]? = some x ∧ x.awake = true ∧ x.toTake < pc.toTake) ∨
      s'.tasks.length < s.tasks.length := by
  have hset : ∀ {j : ℕ} {y x : WorkerPc}, s.pool[j]? = some y →
      (y = pc → x.awake = true ∧ x.toTake < pc.toTake) →
      (s.pool.set j x)[i]? = some pc ∨
        (∃ z, (s.pool.set j x)[i]? = some z ∧ z.awake = true ∧ z.toTake < pc.toTake) ∨
        s'.tasks.length < s.tasks.length := by
    intro j y x hj hx
    rcases set_cases (x := x) hi hj with h | ⟨e, h⟩
    · exact .inl h
    · exact .inr (.inl ⟨x, h, hx e⟩)
  cases hs with
  | leave hj hst => rw [setWorker_stop, hst] at hstop; cases hstop
  | enter hj => exact hset hj (by rintro rfl; decide)
  | lock hj hp => exact hset hj (by rcases hp with rfl | rfl <;> rintro rfl <;> decide)
  | proceed hj => exact hset hj (by rintro rfl; decide)
  | block hj hst ht => exact absurd ht hne
  | sleep hj => exact hset hj (by rintro rfl; cases hpc)
  | quit hj ht => exact absurd ht hne
  | @pop j t ts hj ht =>
    right; right
    show ts.length < s.tasks.length
    rw [ht]
    exact Nat.lt_succ_self _
  | decrement hj => exact hset hj (by rintro rfl; exact ⟨rfl, by simp [WorkerPc.toTake]⟩)
  | run hj => exact hset hj (by rintro rfl; exact ⟨rfl, by simp [WorkerPc.toTake]⟩)
  | increment hj => exact hset hj (by rintro rfl; decide)
  | spurious hj => exact hset hj (by rintro rfl; cases hpc)
  | notify ht hj => exact hset hj (by rintro rfl; cases hpc)
  | spawn =>
    left
    show (s.pool ++ [WorkerPc.loop])[i]? = some pc
    rw [List.getElem?_append_left (List.getElem?_eq_some_iff.mp hi).1, hi]
  | notifyAll ho =>
    have hst : s.stop = false := hstop
    rw [hI.stop_eq, ho] at hst
    cases hst
  | _ => exact .inl hi

/-- A worker with a task in its hands keeps it until it has run it. -/
theorem holder_of_step (hi : s.pool[i]? = some pc) (hpc : pc.holdsTask k = true) (hs : Step s a s') :
    s'.pool[i]? = some pc ∨ (pc = .decrement k ∧ s'.pool[i]? = some (.run k)) ∨ (k, i) ∈ s'.ran := by
  have hset : ∀ {j : ℕ} {y x : WorkerPc}, s.pool[j]? = some y → y ≠ pc →
      (s.pool.set j x)[i]? = some pc ∨
        (pc = .decrement k ∧ (s.pool.set j x)[i]? = some (.run k)) ∨ (k, i) ∈ s'.ran :=
    fun hj hne => .inl ((set_cases hi hj).resolve_right fun h => hne h.1)
  cases hs with
  | leave hj => exact hset hj (by rintro rfl; cases hpc)
  | enter hj => exact hset hj (by rintro rfl; cases hpc)
  | lock hj hp => exact hset hj (by rcases hp with rfl | rfl <;> rintro rfl <;> cases hpc)
  | proceed hj => exact hset hj (by rintro rfl; cases hpc)
  | block hj => exact hset hj (by rintro rfl; cases hpc)
  | sleep hj => exact hset hj (by rintro rfl; cases hpc)
  | quit hj => exact hset hj (by rintro rfl; cases hpc)
  | pop hj => exact hset hj (by rintro rfl; cases hpc)
  | @decrement j t hj =>
    rcases set_cases (x := .run t) hi hj with h | ⟨rfl, h⟩
    · exact .inl h
    · obtain rfl : t = k := beq_iff_eq.mp hpc
      exact .inr (.inl ⟨rfl, h⟩)
  | @run j t hj =>
    by_cases e : j = i
    · subst e
      obtain rfl := Option.some.inj (hj.symm.trans hi)
      obtain rfl : t = k := beq_iff_eq.mp hpc
      exact .inr (.inr (List.mem_append_right _ (List.mem_singleton_self _)))
    · exact .inl ((List.getElem?_set_ne e).trans hi)
  | increment hj => exact hset hj (by rintro rfl; cases hpc)
  | spurious hj => exact hset hj (by rintro rfl; cases hpc)
  | notify ht hj => exact hset hj (by rintro rfl; cases hpc)
  | spawn =>
    left
    show (s.pool ++ [WorkerPc.loop])[i]? = some pc
    rw [List.getElem?_append_left (List.getElem?_eq_some_iff.mp hi).1, hi]
  | notifyAll =>
    left
    show (s.pool.map wake)[i]? = some pc
    rw [List.getElem?_map, hi]
    cases pc <;> first | rfl | cases hpc
  | _ => exact .inl hi

/-- A call of `commit` stays where it is, is refused or comes closer to its push. -/
theorem commit_of_step {c : CommitPc} (hk : s.commits[k]? = some c) (hs : Step s a s') :
    s'.commits[k]? = some c ∨ s'.stop = true ∨
      ∃ x, s'.commits[k]? = some x ∧ (c.pushed = false → x.pushed = true ∨ x.toPush < c.toPush) := by
  have hset : ∀ {t : ℕ} {y x : CommitPc}, s.commits[t]? = some y →
      (y.pushed = false → x.pushed = true ∨ x.toPush < y.toPush) →
      (s.commits.set t x)[k]? = some c ∨ s'.stop = true ∨
        ∃ z, (s.commits.set t x)[k]? = some z ∧
          (c.pushed = false → z.pushed = true ∨ z.toPush < c.toPush) := by
    intro t y x ht hx
    by_cases e : t = k
    · subst e
      have hlt : t < s.commits.length := (List.getElem?_eq_some_iff.mp ht).1
      obtain rfl := Option.some.inj (ht.symm.trans hk)
      exact .inr (.inr ⟨x, List.getElem?_set_self hlt, hx⟩)
    · exact .inl ((List.getElem?_set_ne e).trans hk)
  cases hs with
  | call =>
    left
    show (s.commits ++ [CommitPc.check])[k]? = some c
    rw [List.getElem?_append_left (List.getElem?_eq_some_iff.mp hk).1, hk]
  | refuse ht hst => exact .inr (.inl hst)
  | checked ht => exact hset ht (by decide)
  | commitLock ht => exact hset ht (by decide)
  | push ht => exact hset ht (by decide)
  | notify ht => exact hset ht (by decide)
  | notifyNone ht => exact hset ht (by decide)
  | _ => exact .inl hk

/-! ## What holds as long as the pool is not stopped -/

/-- Before the stop nobody has left the loop, a worker about to take a task finds one, and no call of
`commit` has been refused. -/
structure Staying (s : ThreadPool) : Prop where
  exited : s.stop = false → .exited ∉ s.pool
  take : s.stop = false → .take ∈ s.pool → s.tasks ≠ []
  refused : s.stop = false → .refused ∉ s.commits

/-- A worker goes on to a place that is not the end of its loop. -/
theorem Staying.setWorker {x : WorkerPc} (h : s.Staying) (hx : x ≠ .exited)
    (ht : s.stop = false → x = .take → s.tasks ≠ []) : (s.setWorker i x).Staying where
  exited hs hm := by
    rcases List.mem_or_eq_of_mem_set hm with hm | he
    · exact h.exited hs hm
    · exact hx he.symm
  take hs hm := by
    rcases List.mem_or_eq_of_mem_set hm with hm | he
    · exact h.take hs hm
    · exact ht hs he.symm
  refused := h.refused

theorem Staying.setCommit {t : ℕ} {x : CommitPc} (h : s.Staying) (hx : x ≠ .refused) :
    (s.setCommit t x).Staying where
  exited := h.exited
  take := h.take
  refused hs hm := by
    rcases List.mem_or_eq_of_mem_set hm with hm | he
    · exact h.refused hs hm
    · exact hx he.symm

theorem Staying.of_stop (h : s.stop = true) : s.Staying := by
  refine ⟨fun hs => ?_, fun hs => ?_, fun hs => ?_⟩ <;> rw [h] at hs <;> cases hs

/-- The worker that takes the task has the mutex, so no other one is about to. -/
theorem Staying.pop {t : ℕ} {ts : List ℕ} (h : s.Staying) (he : s.Exclusive)
    (hi : s.pool[i]? = some .take) :
    ({ s with tasks := ts, mutex := none }.setWorker i (.decrement t)).Staying where
  exited hs hm := by
    rcases List.mem_or_eq_of_mem_set hm with hm | hm
    · exact h.exited hs hm
    · cases hm
  take hs hm := by
    obtain ⟨j, hj⟩ := List.mem_iff_getElem?.mp hm
    have hji : j ≠ i := by
      rintro rfl
      have hlt : j < s.pool.length := (List.getElem?_eq_some_iff.mp hi).1
      have hj : (s.pool.set j (.decrement t))[j]? = some .take := hj
      rw [List.getElem?_set_self hlt] at hj
      cases hj
    have hj : s.pool[j]? = some .take := (List.getElem?_set_ne hji.symm).symm.trans hj
    have hmi := (he (.worker i)).mpr ⟨_, hi, rfl⟩
    rw [(he (.worker j)).mpr ⟨_, hj, rfl⟩] at hmi
    exact absurd (Holder.worker.inj (Option.some.inj hmi)) hji
  refused := h.refused

theorem staying_step (h : s.Staying) (hI : s.Inv) (hs : Step s a s') : s'.Staying := by
  cases hs with
  | leave hi hst => exact .of_stop hst
  | enter hi => exact h.setWorker (by decide) (by simp)
  | lock hi => exact Staying.setWorker (s := s.setMutex _) ⟨h.1, h.2, h.3⟩ (by decide) (by simp)
  | proceed hi ht =>
    refine h.setWorker (by decide) fun hst _ => ht.resolve_left fun hst' => ?_
    rw [hst'] at hst
    cases hst
  | block hi => exact h.setWorker (by decide) (by simp)
  | sleep hi => exact Staying.setWorker (s := s.setMutex _) ⟨h.1, h.2, h.3⟩ (by decide) (by simp)
  | quit hi ht =>
    cases hst : s.stop with
    | true => exact .of_stop hst
    | false => exact absurd ht (h.take hst (List.mem_of_getElem? hi))
  | pop hi ht => exact h.pop hI.exclusive hi
  | decrement hi =>
    exact Staying.setWorker (s := { s with threadNum := s.threadNum - 1 }) ⟨h.1, h.2, h.3⟩ (by simp)
      (by simp)
  | @run i t hi =>
    exact Staying.setWorker (s := { s with ran := s.ran ++ [(t, i)] }) ⟨h.1, h.2, h.3⟩ (by simp)
      (by simp)
  | increment hi =>
    exact Staying.setWorker (s := { s with threadNum := s.threadNum + 1 }) ⟨h.1, h.2, h.3⟩ (by simp)
      (by simp)
  | spurious hi => exact h.setWorker (by decide) (by simp)
  | call => exact ⟨h.exited, h.take, fun hs hm => h.refused hs (by simpa using hm)⟩
  | refuse ht hst => exact .of_stop hst
  | checked ht => exact h.setCommit (by decide)
  | commitLock ht => exact Staying.setCommit (s := s.setMutex _) ⟨h.1, h.2, h.3⟩ (by decide)
  | @push t w ht =>
    exact Staying.setCommit (s := { s with tasks := s.tasks ++ [t], mutex := none })
      ⟨h.exited, fun _ _ => by simp, h.refused⟩ (by decide)
  | notify ht hi => exact (h.setWorker (by decide) (by simp)).setCommit (by decide)
  | notifyNone ht => exact h.setCommit (by decide)
  | spawn =>
    refine ⟨fun hs hm => h.exited hs ?_, fun hs hm => h.take hs ?_, h.refused⟩
    · simpa using hm
    · simpa using hm
  | started => exact ⟨h.exited, h.take, h.refused⟩
  | store => exact .of_stop rfl
  | notifyAll ho => exact .of_stop (hI.stop_eq.trans (by rw [ho]; rfl))
  | join => exact ⟨h.exited, h.take, h.refused⟩
  | joined => exact ⟨h.exited, h.take, h.refused⟩

end ThreadPool

theorem staying_of_reachable {num : ℕ} {s : ThreadPool} (h : (threadPool num).Reachable s) :
    s.Staying := by
  refine h.invariant (fun s hs => ?_) fun s a s' hr h _ hs => ?_
  · obtain rfl : s = .initial num := hs
    exact ⟨by simp [ThreadPool.initial], by simp [ThreadPool.initial], by simp [ThreadPool.initial]⟩
  · exact ThreadPool.staying_step h (inv_of_reachable hr) (ThreadPool.step_cases hs)

theorem counted_of_threadPool {num : ℕ} {s : ThreadPool} (h : (threadPool num).Reachable s) :
    s.Counted (poolSize num) := by
  refine h.invariant (fun s hs => ?_) fun s a s' hr h _ hs => ?_
  · obtain rfl : s = .initial num := hs
    exact ThreadPool.counted_initial num
  · exact ThreadPool.counted_step h (ThreadPool.step_cases hs)

namespace ThreadPool

variable {num : ℕ} {s s' : ThreadPool} {a : Action} {i k n t : ℕ} {pc : WorkerPc}

/-! ## The stages of a task -/

/-- The pool has been stopped, or task `k` has been run. -/
def Answered (k : ℕ) (s : ThreadPool) : Prop := s.stop = true ∨ ∃ i, (k, i) ∈ s.ran

/-- Task `k` waits in the queue, with `n` tasks before it. -/
structure Queued (num k n : ℕ) (s : ThreadPool) : Prop where
  reachable : (threadPool num).Reachable s
  running : s.stop = false
  mem : k ∈ s.tasks
  place : s.tasks.idxOf k = n

/-- The task is out of the queue, or it has come forward. -/
def Advanced (num k n : ℕ) (s : ThreadPool) : Prop :=
  (s.stop = true ∨ ∃ i : ℕ, s.pool[i]? = some (WorkerPc.decrement k)) ∨ ∃ m < n, Queued num k m s

theorem Queued.tasks_ne (h : Queued num k n s) : s.tasks ≠ [] := List.ne_nil_of_mem h.mem

/-- A step leaves the task at its place or advances it. -/
theorem Queued.step (h : Queued num k n s) (hs : (threadPool num).step s a = some s') :
    Advanced num k n s' ∨ Queued num k n s' ∧ s.tasks.length ≤ s'.tasks.length := by
  cases hst : s'.stop with
  | true => exact .inl (.inl (.inl hst))
  | false =>
    have hr := h.reachable.step trivial hs
    have hplace := h.place
    rcases tasks_of_step (step_cases hs) with ht | ⟨t, ht⟩ | ⟨i, t, ht, hi⟩
    · exact .inr ⟨⟨hr, hst, ht ▸ h.mem, by rw [ht, hplace]⟩, by rw [ht]⟩
    · refine .inr ⟨⟨hr, hst, ?_, ?_⟩, ?_⟩
      · rw [ht]
        exact List.mem_append_left _ h.mem
      · rw [ht, List.idxOf_append_of_mem h.mem, hplace]
      · rw [ht, List.length_append]
        exact Nat.le_add_right ..
    · left
      by_cases e : t = k
      · exact .inl (.inr ⟨i, e ▸ hi⟩)
      · have hmem : k ∈ s'.tasks := by
          have hmem := h.mem
          rw [ht] at hmem
          exact (List.mem_cons.mp hmem).resolve_left (Ne.symm e)
        rw [ht, List.idxOf_cons_ne _ e] at hplace
        exact .inr ⟨_, hplace ▸ Nat.lt_succ_self _, hr, hst, hmem, rfl⟩

/-- While a task waits, a worker that is not awake is asleep. -/
theorem Queued.asleep (h : Queued num k n s) (hi : s.pool[i]? = some pc) (hpc : pc.awake = false) :
    pc = .asleep := by
  have hmem := List.mem_of_getElem? hi
  cases pc with
  | asleep => rfl
  | blocking => exact absurd ((supplied_of_reachable h.reachable).blocking hmem) h.tasks_ne
  | exited => exact absurd hmem ((staying_of_reachable h.reachable).exited h.running)
  | _ => cases hpc

/-- While a task waits, the pool has all its workers. -/
theorem Queued.built (h : Queued num k n s) (j : ℕ) : s.owner ≠ .start j := by
  obtain ⟨t, ts, ht⟩ := List.exists_cons_of_ne_nil h.tasks_ne
  exact (counted_of_threadPool h.reachable).built_of_task ht j

theorem Queued.pool_ne (h : Queued num k n s) : s.pool ≠ [] := by
  have hlen : s.pool.length = poolSize num := (counted_of_threadPool h.reachable).built h.built
  exact List.ne_nil_of_length_pos (hlen ▸ poolSize_pos num)

/-- Some worker is awake, or all of them sleep and a notification is owed. -/
theorem Queued.awake_or_notify (h : Queued num k n s) :
    (∃ (i : ℕ) (pc : WorkerPc), s.pool[i]? = some pc ∧ pc.awake = true) ∨
      (∀ pc ∈ s.pool, pc = .asleep) ∧ ∃ t : ℕ, s.commits[t]? = some CommitPc.notify := by
  by_cases hall : ∀ pc ∈ s.pool, pc = .asleep
  · refine .inr ⟨hall, ?_⟩
    obtain ⟨pc, hpc⟩ := List.exists_mem_of_ne_nil _ h.pool_ne
    have hle := (supplied_of_reachable h.reachable).supply h.running (hall pc hpc ▸ hpc)
    have hfree : s.pool.countP WorkerPc.free = 0 :=
      List.countP_eq_zero.mpr fun pc hpc => by rw [hall pc hpc]; decide
    have hpos : 0 < s.commits.countP (· = .notify) := by
      have htasks := List.length_pos_of_ne_nil h.tasks_ne
      unfold supply at hle
      omega
    obtain ⟨c, hc, hn⟩ := List.countP_pos_iff.mp hpos
    obtain ⟨t, ht⟩ := List.mem_iff_getElem?.mp hc
    exact ⟨t, (decide_eq_true_eq.mp hn) ▸ ht⟩
  · left
    push Not at hall
    obtain ⟨pc, hpc, hne⟩ := hall
    obtain ⟨i, hi⟩ := List.mem_iff_getElem?.mp hpc
    cases ha : pc.awake with
    | true => exact ⟨i, pc, hi, ha⟩
    | false => exact absurd (h.asleep hi ha) hne

/-- Where everybody sleeps, an owed notification stays owed until somebody is awake. -/
theorem notify_of_step (hall : ∀ pc ∈ s.pool, pc = .asleep) (hne : s.pool ≠ [])
    (ht : s.commits[t]? = some .notify) (hs : Step s a s') :
    s'.commits[t]? = some .notify ∨
      ∃ (i : ℕ) (pc : WorkerPc), s'.pool[i]? = some pc ∧ pc.awake = true := by
  have hasleep : ∀ {j : ℕ} {y : WorkerPc}, s.pool[j]? = some y → y = .asleep :=
    fun hj => hall _ (List.mem_of_getElem? hj)
  have hwoken : ∀ {j : ℕ} {y : WorkerPc}, s.pool[j]? = some y →
      (s.pool.set j .woken)[j]? = some .woken :=
    fun hj => List.getElem?_set_self (List.getElem?_eq_some_iff.mp hj).1
  have hset : ∀ {u : ℕ} {y x : CommitPc}, s.commits[u]? = some y → y ≠ .notify →
      (s.commits.set u x)[t]? = some .notify := by
    intro u y x hu hy
    have hne : u ≠ t := by
      rintro rfl
      exact hy (Option.some.inj (hu.symm.trans ht))
    exact (List.getElem?_set_ne hne).trans ht
  cases hs with
  | leave hj => cases hasleep hj
  | enter hj => cases hasleep hj
  | lock hj hp => rcases hp with rfl | rfl <;> cases hasleep hj
  | proceed hj => cases hasleep hj
  | block hj => cases hasleep hj
  | sleep hj => cases hasleep hj
  | quit hj => cases hasleep hj
  | pop hj => cases hasleep hj
  | decrement hj => cases hasleep hj
  | run hj => cases hasleep hj
  | increment hj => cases hasleep hj
  | spurious hj => exact .inr ⟨_, .woken, hwoken hj, rfl⟩
  | call =>
    left
    show (s.commits ++ [CommitPc.check])[t]? = _
    rw [List.getElem?_append_left (List.getElem?_eq_some_iff.mp ht).1, ht]
  | refuse hu => exact .inl (hset hu (by decide))
  | checked hu => exact .inl (hset hu (by decide))
  | commitLock hu => exact .inl (hset hu (by decide))
  | push hu => exact .inl (hset hu (by decide))
  | notify hu hj => exact .inr ⟨_, .woken, hwoken hj, rfl⟩
  | notifyNone hu hnone =>
    obtain ⟨pc, hpc⟩ := List.exists_mem_of_ne_nil _ hne
    exact absurd (hall pc hpc ▸ hpc) hnone
  | _ => exact .inl ht

/-- A pushed task waits in the queue, is in the hands of a worker or has been run. -/
theorem pushed_cases (hI : s.Inv) {c : CommitPc} (hk : s.commits[k]? = some c)
    (hc : c.pushed = true) : k ∈ s.tasks ∨
      (∃ (i : ℕ) (pc : WorkerPc), s.pool[i]? = some pc ∧ pc.holdsTask k = true) ∨
      ∃ i, (k, i) ∈ s.ran := by
  have hsum := hI.conserved k
  rw [hk, Option.any_some, hc, if_pos rfl] at hsum
  have hpos : 0 < s.tasks.count k ∨ 0 < s.pool.countP (WorkerPc.holdsTask k) ∨
      0 < s.ran.countP (fun r => r.1 == k) := by omega
  rcases hpos with h | h | h
  · exact .inl (List.count_pos_iff.mp h)
  · obtain ⟨pc, hpc, hh⟩ := List.countP_pos_iff.mp h
    obtain ⟨i, hi⟩ := List.mem_iff_getElem?.mp hpc
    exact .inr (.inl ⟨i, pc, hi, hh⟩)
  · obtain ⟨⟨t, i⟩, hr, ht⟩ := List.countP_pos_iff.mp h
    obtain rfl : t = k := beq_iff_eq.mp ht
    exact .inr (.inr ⟨i, hr⟩)

end ThreadPool

/-! ## The progress of the threads -/

/-- No thread stands still where it could go on: no worker but one that sleeps or has left its loop,
and no call of `commit` that has not returned. -/
structure Goes (num : ℕ) (sched : ℕ → Action) : Prop where
  worker : ∀ (i : ℕ) (pc : WorkerPc), pc ≠ .asleep → pc ≠ .exited →
    (threadPool num).LeadsTo (.initial num) sched (fun s => s.pool[i]? = some pc)
      fun s => s.pool[i]? ≠ some pc
  commit : ∀ (t : ℕ) (c : CommitPc), c ≠ .accepted → c ≠ .refused →
    (threadPool num).LeadsTo (.initial num) sched (fun s => s.commits[t]? = some c)
      fun s => s.commits[t]? ≠ some c

namespace Goes

open ThreadPool

variable {num : ℕ} {sched : ℕ → Action}

theorem reachable (num : ℕ) (sched : ℕ → Action) (t : ℕ) :
    (threadPool num).Reachable ((threadPool num).trace (.initial num) sched t) :=
  Machine.trace_reachable (.init rfl) t

theorem held (h : Goes num sched) (i k : ℕ) :
    (threadPool num).LeadsTo (.initial num) sched
      (fun s => ∃ pc, s.pool[i]? = some pc ∧ WorkerPc.holdsTask k pc = true) (Answered k) := by
  have hrun : (threadPool num).LeadsTo (.initial num) sched
      (fun s => s.pool[i]? = some (.run k)) (Answered k) := by
    refine .of_leaves (fun t s' hi hs => ?_) (h.worker i (.run k) (by simp) (by simp))
    rcases holder_of_step hi (beq_self_eq_true k) (step_cases hs) with hi' | ⟨he, -⟩ | hran
    · exact .inl hi'
    · cases he
    · exact .inr (.inr ⟨i, hran⟩)
  have hdecrement : (threadPool num).LeadsTo (.initial num) sched
      (fun s => s.pool[i]? = some (.decrement k)) (Answered k) := by
    have hleaves : (threadPool num).LeadsTo (.initial num) sched
        (fun s => s.pool[i]? = some (.decrement k))
        fun s => s.pool[i]? = some (.run k) ∨ Answered k s := by
      refine .of_leaves (fun t s' hi hs => ?_) (h.worker i (.decrement k) (by simp) (by simp))
      rcases holder_of_step hi (beq_self_eq_true k) (step_cases hs) with hi' | ⟨-, hi'⟩ | hran
      · exact .inl hi'
      · exact .inr (.inl hi')
      · exact .inr (.inr (.inr ⟨i, hran⟩))
    exact hleaves.trans (hrun.or (.of_imp fun _ => id))
  refine .mono (hdecrement.or hrun) (fun t ht => ?_) fun _ => id
  obtain ⟨pc, hi, hpc⟩ := ht
  cases pc with
  | decrement t => exact .inl (beq_iff_eq.mp hpc ▸ hi)
  | run t => exact .inr (beq_iff_eq.mp hpc ▸ hi)
  | _ => cases hpc

/-- A worker that is awake takes a task from the queue. -/
theorem awake (h : Goes num sched) (k n i : ℕ) :
    (threadPool num).LeadsTo (.initial num) sched
      (fun s => Queued num k n s ∧ ∃ pc, s.pool[i]? = some pc ∧ WorkerPc.awake pc = true)
      (Advanced num k n) := by
  refine .of_measure (fun s => ((s.pool[i]?).map WorkerPc.toTake).getD 0) fun m => ?_
  have hleaves : ∀ pc : WorkerPc, (threadPool num).LeadsTo (.initial num) sched
      (fun s => Queued num k n s ∧ s.pool[i]? = some pc ∧ pc.awake = true ∧ pc.toTake = m)
      fun s => Advanced num k n s ∨
        (Queued num k n s ∧ ∃ x, s.pool[i]? = some x ∧ WorkerPc.awake x = true) ∧
          ((s.pool[i]?).map WorkerPc.toTake).getD 0 < m := by
    intro pc
    by_cases hpc : pc.awake = true
    swap
    · exact .of_imp fun t ht => absurd ht.2.2.1 hpc
    have hne : pc ≠ .asleep ∧ pc ≠ .exited := by constructor <;> rintro rfl <;> cases hpc
    refine .of_leaves (fun t s' ht hs => ?_) ?_
    · obtain ⟨hq, hi, -, rfl⟩ := ht
      rcases hq.step hs with hadv | ⟨hq', hlen⟩
      · exact .inr (.inl hadv)
      · rcases awake_of_step (inv_of_reachable hq.reachable) hi hpc hq'.running hq.tasks_ne
          (step_cases hs) with hi' | ⟨x, hi', hx, hlt⟩ | hlt
        · exact .inl ⟨hq', hi', hpc, rfl⟩
        · refine .inr (.inr ⟨⟨hq', x, hi', hx⟩, ?_⟩)
          rw [hi']
          exact hlt
        · exact absurd hlt (not_lt.mpr hlen)
    · exact (h.worker i pc hne.1 hne.2).mono (fun t ht => ht.2.1) fun x hx hP => hx hP.2.1
  refine .mono (.of_exists hleaves) (fun t ht => ?_) fun _ => id
  obtain ⟨⟨hq, pc, hi, hpc⟩, hm⟩ := ht
  rw [hi] at hm
  exact ⟨pc, hq, hi, hpc, hm⟩

/-- While a task waits, somebody is awake in the end, or the task comes forward. -/
theorem wakes (h : Goes num sched) (k n : ℕ) :
    (threadPool num).LeadsTo (.initial num) sched (Queued num k n) fun s =>
      (∃ (i : ℕ), Queued num k n s ∧ ∃ pc, s.pool[i]? = some pc ∧ WorkerPc.awake pc = true) ∨
        Advanced num k n s := by
  have hnotify : ∀ t : ℕ, (threadPool num).LeadsTo (.initial num) sched
      (fun s => (Queued num k n s ∧ ∀ pc ∈ s.pool, pc = .asleep) ∧
        s.commits[t]? = some CommitPc.notify) fun s =>
      (∃ (i : ℕ), Queued num k n s ∧ ∃ pc, s.pool[i]? = some pc ∧ WorkerPc.awake pc = true) ∨
        Advanced num k n s := by
    intro t
    refine .of_leaves (fun u s' hu hs => ?_)
      ((h.commit t .notify (by decide) (by decide)).mono (fun _ hu => hu.2) fun _ hx hP => hx hP.2)
    obtain ⟨⟨hq, hall⟩, ht⟩ := hu
    rcases hq.step hs with hadv | ⟨hq', -⟩
    · exact .inr (.inr hadv)
    by_cases hex : ∃ (i : ℕ) (pc : WorkerPc), s'.pool[i]? = some pc ∧ pc.awake = true
    · obtain ⟨i, pc, hi, hpc⟩ := hex
      exact .inr (.inl ⟨i, hq', pc, hi, hpc⟩)
    · refine .inl ⟨⟨hq', fun pc hpc => ?_⟩, ?_⟩
      · obtain ⟨i, hi⟩ := List.mem_iff_getElem?.mp hpc
        refine hq'.asleep hi (Bool.eq_false_iff.mpr fun ha => hex ⟨i, pc, hi, ha⟩)
      · exact (notify_of_step hall hq.pool_ne ht (step_cases hs)).resolve_right hex
  refine .trans (.of_imp fun t hq => ?_)
    (.or (.of_imp fun _ ht => .inl ht) (.of_exists hnotify) (P := fun s => ∃ (i : ℕ),
      Queued num k n s ∧ ∃ pc, s.pool[i]? = some pc ∧ WorkerPc.awake pc = true))
  rcases hq.awake_or_notify with ⟨i, pc, hi, hpc⟩ | ⟨hall, t, ht⟩
  · exact .inl ⟨i, hq, pc, hi, hpc⟩
  · exact .inr ⟨t, ⟨hq, hall⟩, ht⟩

theorem queued (h : Goes num sched) (k n : ℕ) :
    (threadPool num).LeadsTo (.initial num) sched (Queued num k n) (Answered k) := by
  induction n using Nat.strongRecOn with
  | _ n ih =>
    have hadvanced : (threadPool num).LeadsTo (.initial num) sched (Advanced num k n)
        (Answered k) := by
      rintro t ((hst | ⟨i, hi⟩) | ⟨m, hm, hq⟩)
      · exact ⟨t, le_rfl, .inl hst⟩
      · exact h.held i k t ⟨_, hi, beq_self_eq_true k⟩
      · exact ih m hm t hq
    exact (h.wakes k n).trans (((Machine.LeadsTo.of_exists fun i => h.awake k n i).trans
      hadvanced).or hadvanced)

theorem pushes (h : Goes num sched) (k : ℕ) :
    (threadPool num).LeadsTo (.initial num) sched (fun s => k < s.commits.length) fun s =>
      s.stop = true ∨ ∃ c, s.commits[k]? = some c ∧ CommitPc.pushed c = true := by
  suffices hcall : (threadPool num).LeadsTo (.initial num) sched
      (fun s => ∃ c, s.commits[k]? = some c) fun s =>
        s.stop = true ∨ ∃ c, s.commits[k]? = some c ∧ CommitPc.pushed c = true from
    hcall.mono (fun t ht => ⟨_, List.getElem?_eq_getElem ht⟩) fun _ => id
  refine .of_measure (fun s => ((s.commits[k]?).map CommitPc.toPush).getD 0) fun m => ?_
  have hleaves : ∀ c : CommitPc, (threadPool num).LeadsTo (.initial num) sched
      (fun s => s.commits[k]? = some c ∧ c.toPush = m) fun s =>
        (s.stop = true ∨ ∃ c, s.commits[k]? = some c ∧ CommitPc.pushed c = true) ∨
          (∃ c, s.commits[k]? = some c) ∧ ((s.commits[k]?).map CommitPc.toPush).getD 0 < m := by
    intro c
    cases hpushed : c.pushed with
    | true => exact .of_imp fun t ht => .inl (.inr ⟨c, ht.1, hpushed⟩)
    | false =>
      by_cases href : c = .refused
      · refine .of_imp fun t ht => .inl (.inl (Bool.not_eq_false _ ▸ fun hst => ?_))
        exact (staying_of_reachable (reachable num sched t)).refused hst
          (List.mem_of_getElem? (href ▸ ht.1))
      have hacc : c ≠ .accepted := by
        rintro rfl
        cases hpushed
      refine .of_leaves (fun t s' ht hs => ?_)
        ((h.commit k c hacc href).mono (fun _ ht => ht.1) fun _ hx hP => hx hP.1)
      obtain ⟨hk, rfl⟩ := ht
      rcases commit_of_step hk (step_cases hs) with hk' | hst | ⟨x, hx, hlt⟩
      · exact .inl ⟨hk', rfl⟩
      · exact .inr (.inl (.inl hst))
      · rcases hlt hpushed with hp | hlt
        · exact .inr (.inl (.inr ⟨x, hx, hp⟩))
        · refine .inr (.inr ⟨⟨x, hx⟩, ?_⟩)
          rw [hx]
          exact hlt
  refine .mono (.of_exists hleaves) (fun t ht => ?_) fun _ => id
  obtain ⟨⟨c, hk⟩, hm⟩ := ht
  rw [hk] at hm
  exact ⟨c, hk, hm⟩

end Goes

/-- **Every task is run.** No thread stands still where it could go on. Then the task of every call
of `commit` is run in the end, unless the pool is stopped. -/
theorem every_task_runs (num : ℕ) (sched : ℕ → Action) (h : Goes num sched) :
    ∀ t k : ℕ, k < ((threadPool num).trace (.initial num) sched t).commits.length →
      ∃ t' ≥ t, ((threadPool num).trace (.initial num) sched t').stop = true ∨
        ∃ i, (k, i) ∈ ((threadPool num).trace (.initial num) sched t').ran := by
  intro t k hk
  obtain ⟨t₁, h₁, hst | ⟨c, hc, hp⟩⟩ := h.pushes k t hk
  · exact ⟨t₁, h₁, .inl hst⟩
  suffices hdone : ∃ t' ≥ t₁,
      ThreadPool.Answered k ((threadPool num).trace (.initial num) sched t') by
    obtain ⟨t', h', hdone⟩ := hdone
    exact ⟨t', le_trans h₁ h', hdone⟩
  have hr := Goes.reachable num sched t₁
  rcases ThreadPool.pushed_cases (inv_of_reachable hr) hc hp with hmem | ⟨i, hi⟩ | hran
  · by_cases hst : ((threadPool num).trace (.initial num) sched t₁).stop = true
    · exact ⟨t₁, le_rfl, .inl hst⟩
    · exact h.queued k _ t₁ ⟨hr, Bool.not_eq_true _ ▸ hst, hmem, rfl⟩
  · exact h.held i k t₁ hi
  · exact ⟨t₁, le_rfl, .inr hran⟩

/-- A schedule that has brought every worker to sleep and every call of `commit` to its end, and that
offers nothing enabled from then on. -/
theorem Goes.of_rest {num : ℕ} {sched : ℕ → Action} (n : ℕ)
    (hrest : ∀ t ≥ n, (threadPool num).step ((threadPool num).trace (.initial num) sched n)
      (sched t) = none)
    (hpool : ∀ pc ∈ ((threadPool num).trace (.initial num) sched n).pool, pc = .asleep)
    (hcommits : ∀ c ∈ ((threadPool num).trace (.initial num) sched n).commits, c = .accepted) :
    Goes num sched := by
  have hstays : ∀ t ≥ n, (threadPool num).trace (.initial num) sched t =
      (threadPool num).trace (.initial num) sched n := by
    intro t ht
    induction t, ht using Nat.le_induction with
    | base => rfl
    | succ t ht ih =>
      show (Machine.step _ _ _).getD _ = _
      rw [ih, hrest t ht]
      rfl
  refine ⟨fun i pc hpc _ t _ => ⟨max t n, le_max_left .., fun hi => hpc ?_⟩,
    fun k c hc _ t _ => ⟨max t n, le_max_left .., fun hk => hc ?_⟩⟩
  · rw [hstays _ (le_max_right ..)] at hi
    exact hpool _ (List.mem_of_getElem? hi)
  · rw [hstays _ (le_max_right ..)] at hk
    exact hcommits _ (List.mem_of_getElem? hk)

/-- Both workers sleep when the task is pushed; the call wakes the first of them. -/
theorem every_task_runs_woken :
    ∃ t ≥ 12, ((threadPool 2).trace (.initial 2) (fun t =>
        [.owner, .owner, .owner, .worker 0, .worker 0, .worker 0, .worker 0, .worker 1, .worker 1,
          .worker 1, .worker 1, .call, .commit 0 none, .commit 0 none, .commit 0 none,
          .commit 0 (some 0)].getD t (.worker 0)) t).stop = true ∨
      ∃ i, (0, i) ∈ ((threadPool 2).trace (.initial 2) (fun t =>
        [.owner, .owner, .owner, .worker 0, .worker 0, .worker 0, .worker 0, .worker 1, .worker 1,
          .worker 1, .worker 1, .call, .commit 0 none, .commit 0 none, .commit 0 none,
          .commit 0 (some 0)].getD t (.worker 0)) t).ran := by
  refine every_task_runs 2 _ (.of_rest 26 (fun t ht => ?_) (by decide) (by decide)) 12 0 (by decide)
  have hidle : ∀ t ≥ 26, [Action.owner, .owner, .owner, .worker 0, .worker 0, .worker 0, .worker 0,
      .worker 1, .worker 1, .worker 1, .worker 1, .call, .commit 0 none, .commit 0 none,
      .commit 0 none, .commit 0 (some 0)].getD t (.worker 0) = .worker 0 := by
    intro t ht
    rw [List.getD_eq_getElem?_getD, List.getElem?_eq_none (le_trans (by decide) ht)]
    rfl
  rw [hidle t ht]
  rfl

end SelfStudy.Pool
