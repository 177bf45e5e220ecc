import SelfStudy.Lib.Schedule
import SelfStudy.Pool.Invariants

/-!
# The idle counter of the thread pool

`thread_num_` bounds the loop of `start()` and counts the idle workers afterwards. No task exists
before the constructor has returned, so no worker decrements the counter while the loop still reads
it; from then on it misses exactly the workers between their decrement and their increment.

A task cannot make a worker skip the increment: the queue holds packaged tasks, and a packaged task
stores what its callable throws. `futuresPool` is the pool together with the futures, where every
execution of a task has an outcome.
-/

namespace SelfStudy.Pool

open Lib

/-- The worker holds a task or owes the increment for one. -/
def WorkerPc.serving : WorkerPc → Bool
  | .decrement _ | .run _ | .increment => true
  | _ => false

/-- The worker is between its decrement and its increment. -/
def WorkerPc.busy : WorkerPc → Bool
  | .run _ | .increment => true
  | _ => false

theorem WorkerPc.serving_of_busy {pc : WorkerPc} (h : pc.busy = true) : pc.serving = true := by
  cases pc with
  | run t => rfl
  | increment => rfl
  | _ => cases h

theorem initial_threadNum (num : ℕ) : (ThreadPool.initial num).threadNum = poolSize num := rfl

namespace ThreadPool

variable {s s' : ThreadPool} {a : Action} {i N : ℕ} {pc x : WorkerPc}

/-- `idleThreadCount()`. -/
def idleThreadCount (s : ThreadPool) : ℤ := s.threadNum

/-- The loop of `start()` has created `i` of `N` workers, and there is nothing for them to do. -/
structure Starting (N : ℕ) (s : ThreadPool) (i : ℕ) : Prop where
  length : s.pool.length = i
  le : i ≤ N
  tasks : s.tasks = []
  commits : s.commits = []
  quiet : ∀ pc ∈ s.pool, pc.serving = false

/-- The counter and the workers it misses make `N`, and so do the workers of the finished pool. -/
structure Counted (N : ℕ) (s : ThreadPool) : Prop where
  balance : s.threadNum + s.pool.countP WorkerPc.busy = N
  starting : ∀ i, s.owner = .start i → s.Starting N i
  built : (∀ i, s.owner ≠ .start i) → s.pool.length = N

theorem counted_initial (num : ℕ) : (initial num).Counted (poolSize num) where
  balance := by
    rw [initial_threadNum]
    rfl
  starting i hi := by
    obtain rfl : 0 = i := OwnerPc.start.inj hi
    exact ⟨rfl, Nat.zero_le _, rfl, rfl, fun _ h => absurd h List.not_mem_nil⟩
  built h := absurd rfl (h 0)

/-! ## What there is only after the constructor -/

theorem Counted.built_of_serving (h : s.Counted N) (hi : s.pool[i]? = some pc)
    (hpc : pc.serving = true) (j : ℕ) : s.owner ≠ .start j := by
  intro ho
  have hq := (h.starting j ho).quiet pc (List.mem_of_getElem? hi)
  rw [hpc] at hq
  cases hq

theorem Counted.built_of_task (h : s.Counted N) {t : ℕ} {ts : List ℕ} (ht : s.tasks = t :: ts)
    (j : ℕ) : s.owner ≠ .start j := by
  intro ho
  have he := (h.starting j ho).tasks
  rw [ht] at he
  cases he

theorem Counted.built_of_commit (h : s.Counted N) {t : ℕ} {c : CommitPc}
    (ht : s.commits[t]? = some c) (j : ℕ) : s.owner ≠ .start j := by
  intro ho
  rw [(h.starting j ho).commits] at ht
  cases ht

/-! ## The steps -/

/-- A worker moves on this side of the counter, or on that side. -/
theorem Counted.setWorker (h : s.Counted N) (hi : s.pool[i]? = some pc)
    (hpool : s'.pool = s.pool.set i x) (hnum : s'.threadNum = s.threadNum)
    (howner : s'.owner = s.owner) (htasks : s'.tasks = s.tasks) (hcommits : s'.commits = s.commits)
    (hb : x.busy = pc.busy) (hx : x.serving = false ∨ pc.serving = true) : s'.Counted N where
  balance := by
    have hcount := countP_set_add WorkerPc.busy hi x
    rw [hb] at hcount
    rw [hnum, hpool, ← h.balance, Nat.add_right_cancel hcount]
  starting j ho := by
    have hj := h.starting j (howner ▸ ho)
    refine ⟨?_, hj.le, htasks.trans hj.tasks, hcommits.trans hj.commits, ?_⟩
    · rw [hpool, List.length_set]
      exact hj.length
    · rw [hpool]
      refine forall_mem_set hj.quiet ?_
      have hq := hj.quiet pc (List.mem_of_getElem? hi)
      exact hx.resolve_right (Bool.eq_false_iff.mp hq)
  built ho := by
    rw [hpool, List.length_set]
    exact h.built fun j hj => ho j (howner.trans hj)

/-- A step of the finished pool is checked against the balance only. -/
theorem Counted.of_built (h : s.Counted N) (ho : ∀ j, s.owner ≠ .start j)
    (ho' : ∀ j, s'.owner ≠ .start j) (hlen : s'.pool.length = s.pool.length)
    (hbal : s'.threadNum + s'.pool.countP WorkerPc.busy =
      s.threadNum + s.pool.countP WorkerPc.busy) : s'.Counted N where
  balance := hbal.trans h.balance
  starting j hj := absurd hj (ho' j)
  built _ := hlen.trans (h.built ho)

/-- A call of `commit` leaves the workers and the counter alone. -/
theorem Counted.commit {t : ℕ} {c : CommitPc} (h : s.Counted N) (ht : s.commits[t]? = some c)
    (howner : s'.owner = s.owner) (hpool : s'.pool = s.pool) (hnum : s'.threadNum = s.threadNum) :
    s'.Counted N := by
  have ho := h.built_of_commit ht
  refine h.of_built ho (fun j hj => ho j (howner.symm.trans hj)) ?_ ?_
  · rw [hpool]
  · rw [hnum, hpool]

/-- The worker takes the task from the queue. -/
theorem Counted.pop {t : ℕ} {ts : List ℕ} (h : s.Counted N) (hi : s.pool[i]? = some .take)
    (ht : s.tasks = t :: ts) :
    ({ s with tasks := ts, mutex := none }.setWorker i (.decrement t)).Counted N := by
  have ho := h.built_of_task ht
  have hcount := countP_set_add WorkerPc.busy hi (.decrement t)
  refine h.of_built ho ho List.length_set ?_
  exact congrArg (s.threadNum + ((·) : ℕ → ℤ) ·) (Nat.add_right_cancel hcount)

/-- The counter goes down as the worker becomes busy. -/
theorem Counted.decrement {t : ℕ} (h : s.Counted N) (hi : s.pool[i]? = some (.decrement t)) :
    ({ s with threadNum := s.threadNum - 1 }.setWorker i (.run t)).Counted N := by
  have ho := h.built_of_serving hi rfl
  have hcount : (s.pool.set i (.run t)).countP WorkerPc.busy = s.pool.countP WorkerPc.busy + 1 :=
    countP_set_add WorkerPc.busy hi (.run t)
  refine h.of_built ho ho List.length_set ?_
  show s.threadNum - 1 + ((s.pool.set i (.run t)).countP WorkerPc.busy : ℤ) = _
  omega

/-- The counter goes up as the worker ceases to be. -/
theorem Counted.increment (h : s.Counted N) (hi : s.pool[i]? = some .increment) :
    ({ s with threadNum := s.threadNum + 1 }.setWorker i .loop).Counted N := by
  have ho := h.built_of_serving hi rfl
  have hcount : (s.pool.set i .loop).countP WorkerPc.busy + 1 = s.pool.countP WorkerPc.busy :=
    countP_set_add WorkerPc.busy hi .loop
  refine h.of_built ho ho List.length_set ?_
  show s.threadNum + 1 + ((s.pool.set i .loop).countP WorkerPc.busy : ℤ) = _
  omega

/-- The worker runs its task. -/
theorem Counted.run {t : ℕ} (h : s.Counted N) (hi : s.pool[i]? = some (.run t)) :
    ({ s with ran := s.ran ++ [(t, i)] }.setWorker i .increment).Counted N :=
  h.setWorker hi rfl rfl rfl rfl rfl rfl (.inr rfl)

/-- The loop of `start()` creates a worker: the counter it reads is still `N`. -/
theorem Counted.spawn (h : s.Counted N) (ho : s.owner = .start i) (hn : (i : ℤ) < s.threadNum) :
    { s with pool := s.pool ++ [WorkerPc.loop], owner := .start (i + 1) }.Counted N where
  balance := by
    show s.threadNum + ((s.pool ++ [WorkerPc.loop]).countP WorkerPc.busy : ℤ) = N
    rw [List.countP_append]
    exact h.balance
  starting j hj := by
    obtain rfl : i + 1 = j := OwnerPc.start.inj hj
    have hi := h.starting i ho
    have hbal := h.balance
    refine ⟨?_, by omega, hi.tasks, hi.commits, ?_⟩
    · show (s.pool ++ [WorkerPc.loop]).length = i + 1
      rw [List.length_append, hi.length]
      rfl
    · intro pc hpc
      rcases List.mem_append.mp hpc with hpc | hpc
      · exact hi.quiet pc hpc
      · rw [List.mem_singleton.mp hpc]
        rfl
  built hj := absurd rfl (hj (i + 1))

theorem Starting.countP_busy (h : s.Starting N i) : s.pool.countP WorkerPc.busy = 0 := by
  refine List.countP_eq_zero.mpr fun pc hpc hb => ?_
  have hq := h.quiet pc hpc
  rw [WorkerPc.serving_of_busy hb] at hq
  cases hq

/-- The loop ends when as many workers exist as the counter says. -/
theorem Counted.started (h : s.Counted N) (ho : s.owner = .start i) (hn : ¬ (i : ℤ) < s.threadNum) :
    { s with owner := .ready }.Counted N where
  balance := h.balance
  starting j hj := by cases hj
  built _ := by
    have hi := h.starting i ho
    have hbal := h.balance
    have hle := hi.le
    rw [hi.countP_busy] at hbal
    show s.pool.length = N
    rw [hi.length]
    omega

theorem countP_busy_wake (l : List WorkerPc) :
    (l.map wake).countP WorkerPc.busy = l.countP WorkerPc.busy := by
  have hw : WorkerPc.busy ∘ wake = WorkerPc.busy := by
    funext pc
    cases pc <;> rfl
  rw [List.countP_map, hw]

theorem counted_step (h : s.Counted N) (hs : Step s a s') : s'.Counted N := by
  cases hs with
  | leave hi => exact h.setWorker hi rfl rfl rfl rfl rfl rfl (.inl rfl)
  | enter hi => exact h.setWorker hi rfl rfl rfl rfl rfl rfl (.inl rfl)
  | lock hi hpc =>
    rcases hpc with rfl | rfl <;> exact h.setWorker hi rfl rfl rfl rfl rfl rfl (.inl rfl)
  | proceed hi => exact h.setWorker hi rfl rfl rfl rfl rfl rfl (.inl rfl)
  | block hi => exact h.setWorker hi rfl rfl rfl rfl rfl rfl (.inl rfl)
  | sleep hi => exact h.setWorker hi rfl rfl rfl rfl rfl rfl (.inl rfl)
  | quit hi => exact h.setWorker hi rfl rfl rfl rfl rfl rfl (.inl rfl)
  | pop hi ht => exact h.pop hi ht
  | decrement hi => exact h.decrement hi
  | run hi => exact h.run hi
  | increment hi => exact h.increment hi
  | spurious hi => exact h.setWorker hi rfl rfl rfl rfl rfl rfl (.inl rfl)
  | call ho => exact h.of_built ho ho rfl rfl
  | refuse ht => exact h.commit ht rfl rfl rfl
  | checked ht => exact h.commit ht rfl rfl rfl
  | commitLock ht => exact h.commit ht rfl rfl rfl
  | push ht => exact h.commit ht rfl rfl rfl
  | @notify t i ht hi =>
    have hw : (s.setWorker i .woken).Counted N := h.setWorker hi rfl rfl rfl rfl rfl rfl (.inl rfl)
    exact hw.commit ht rfl rfl rfl
  | notifyNone ht => exact h.commit ht rfl rfl rfl
  | spawn ho hn => exact h.spawn ho hn
  | started ho hn => exact h.started ho hn
  | store ho => exact h.of_built (by simp [ho]) (by simp) rfl rfl
  | notifyAll ho =>
    refine h.of_built (by simp [ho]) (by simp) (List.length_map wake) ?_
    show s.threadNum + ((s.pool.map wake).countP WorkerPc.busy : ℤ) = _
    rw [countP_busy_wake]
  | join ho => exact h.of_built (by simp [ho]) (by simp) rfl rfl
  | joined ho => exact h.of_built (by simp [ho]) (by simp) rfl rfl

end ThreadPool

/-! ## Tasks and their futures -/

section Futures

variable {ε ρ : Type}

/-- `packaged_task::operator()`: what the callable returned or threw goes to the shared state, and
the call returns. -/
def packagedTask (outcome : Except ε ρ) : Except ε ρ × Except ε Unit := (outcome, .ok ())

/-- `task()` of a worker. The entry of `tasks_` is a packaged task that calls the one `commit` made;
the second component is what leaves the call. -/
def callTask (outcome : Except ε ρ) : Except ε ρ × Except ε Unit :=
  ((packagedTask outcome).1, (packagedTask (packagedTask outcome).2).2)

/-- The pool, and the shared state behind the future of each task. -/
structure FuturesPool (ε ρ : Type) where
  pool : ThreadPool
  results : ℕ → Option (Except ε ρ)

/-- A step of the pool other than the execution of a task, or worker `i` executing its task. -/
inductive FuturesAction (ε ρ : Type)
  | pool (a : Action)
  | task (i : ℕ) (outcome : Except ε ρ)

namespace FuturesPool

/-- The step is the execution of a task. -/
def runsTask (s : ThreadPool) : Action → Bool
  | .worker i =>
    match s.pool[i]? with
    | some (.run _) => true
    | _ => false
  | _ => false

/-- One step. An exception that left the worker's function would end the program. -/
def step (s : FuturesPool ε ρ) : FuturesAction ε ρ → Option (FuturesPool ε ρ)
  | .pool a => if runsTask s.pool a then none else (s.pool.step a).map fun p => { s with pool := p }
  | .task i outcome =>
    match s.pool.pool[i]? with
    | some (.run t) =>
      match (callTask outcome).2 with
      | .error _ => none
      | .ok _ => (s.pool.step (.worker i)).map fun p =>
        { pool := p, results := Function.update s.results t (some (callTask outcome).1) }
    | _ => none

/-- What the pool does in a step. -/
def action : FuturesAction ε ρ → Action
  | .pool a => a
  | .task i _ => .worker i

theorem step_pool {s s' : FuturesPool ε ρ} {a : FuturesAction ε ρ} (h : s.step a = some s') :
    s.pool.step (action a) = some s'.pool := by
  cases a with
  | pool a =>
    simp only [step, Option.ite_none_left_eq_some, Option.map_eq_some_iff] at h
    obtain ⟨-, p, hp, rfl⟩ := h
    exact hp
  | task i outcome =>
    simp only [step] at h
    split at h
    · obtain ⟨p, hp, rfl⟩ := Option.map_eq_some_iff.mp h
      exact hp
    · cases h

theorem step_owner {s : FuturesPool ε ρ} {p : ThreadPool} (h : s.pool.step .owner = some p) :
    s.step (.pool .owner) = some { s with pool := p } := by
  show (s.pool.step .owner).map _ = _
  rw [h]
  rfl

/-- An execution takes its worker to the increment, whatever came out of the task. -/
theorem step_task {s : FuturesPool ε ρ} {i t : ℕ} (hi : s.pool.pool[i]? = some (.run t))
    (outcome : Except ε ρ) : ∃ s', s.step (.task i outcome) = some s' ∧
      s'.pool.pool[i]? = some .increment ∧ s'.results t = some outcome := by
  have hlt : i < s.pool.pool.length := (List.getElem?_eq_some_iff.mp hi).1
  have hs : s.pool.step (.worker i) =
      some ({ s.pool with ran := s.pool.ran ++ [(t, i)] }.setWorker i .increment) := by
    show s.pool.pool[i]?.bind _ = _
    rw [hi]
    rfl
  refine ⟨⟨{ s.pool with ran := s.pool.ran ++ [(t, i)] }.setWorker i .increment,
    Function.update s.results t (some outcome)⟩, ?_, List.getElem?_set_self hlt,
    Function.update_self ..⟩
  simp only [step, hi, hs]
  rfl

end FuturesPool

/-- The pool whose constructor was called with `num`, with its futures. -/
def futuresPool (ε ρ : Type) (num : ℕ) : Machine (FuturesPool ε ρ) (FuturesAction ε ρ) where
  init s := s = ⟨.initial num, fun _ => none⟩
  step := FuturesPool.step

theorem counted_of_reachable {num : ℕ} {s : FuturesPool ε ρ}
    (h : (futuresPool ε ρ num).Reachable s) : s.pool.Counted (poolSize num) := by
  refine h.invariant (P := fun s => s.pool.Counted (poolSize num)) (fun s hs => ?_)
    fun s a s' _ h _ hs => ThreadPool.counted_step h
      (ThreadPool.step_cases (FuturesPool.step_pool hs))
  obtain rfl : s = ⟨.initial num, fun _ => none⟩ := hs
  exact ThreadPool.counted_initial num

/-! ## The end of `start()` -/

/-- The rounds that the loop of `start()` has before it, and the last look at the counter. -/
def roundsLeft (N : ℕ) : OwnerPc → ℕ
  | .start i => N + 1 - i
  | _ => 0

theorem roundsLeft_le {N : ℕ} {s s' : ThreadPool} {a : Action} (hs : ThreadPool.Step s a s') :
    roundsLeft N s'.owner ≤ roundsLeft N s.owner := by
  cases hs with
  | @spawn i ho =>
    rw [ho]
    show N + 1 - (i + 1) ≤ N + 1 - i
    omega
  | started => exact Nat.zero_le _
  | store => exact Nat.zero_le _
  | notifyAll => exact Nat.zero_le _
  | join => exact Nat.zero_le _
  | joined => exact Nat.zero_le _
  | _ => exact le_rfl

theorem roundsLeft_owner {N i : ℕ} {s : ThreadPool} (h : s.Counted N) (ho : s.owner = .start i) :
    ∃ s', s.step .owner = some s' ∧ roundsLeft N s'.owner < roundsLeft N s.owner := by
  have hle := (h.starting i ho).le
  simp only [ThreadPool.step, ThreadPool.ownerStep, ho]
  split_ifs
  · refine ⟨_, rfl, ?_⟩
    show N + 1 - (i + 1) < N + 1 - i
    omega
  · refine ⟨_, rfl, ?_⟩
    show 0 < N + 1 - i
    omega

/-- The constructor returns, unless its thread is never scheduled again. -/
theorem start_returns (num : ℕ) {sched : ℕ → FuturesAction ε ρ}
    (hfair : Machine.Fair (· = .pool .owner) sched) :
    ∃ t, ∀ i, ((futuresPool ε ρ num).trace ⟨.initial num, fun _ => none⟩ sched t).pool.owner ≠
      .start i := by
  have hinv : ∀ t, ((futuresPool ε ρ num).trace ⟨.initial num, fun _ => none⟩ sched t).pool.Counted
      (poolSize num) :=
    Machine.trace_invariant (P := fun s : FuturesPool ε ρ => s.pool.Counted (poolSize num))
      (ThreadPool.counted_initial num) fun s a s' h hs =>
        ThreadPool.counted_step h (ThreadPool.step_cases (FuturesPool.step_pool hs))
  refine Machine.reaches_of_fair (W := fun _ => False)
    (G := fun s : FuturesPool ε ρ => ∀ i, s.pool.owner ≠ .start i)
    (fun s => roundsLeft (poolSize num) s.pool.owner) (fun t s' hs => ?_) (fun t ht hG _ => ?_)
    hfair fun t h => absurd h id
  · rcases Nat.lt_or_eq_of_le (roundsLeft_le (N := poolSize num)
      (ThreadPool.step_cases (FuturesPool.step_pool hs))) with hlt | heq
    · exact .inl hlt
    · exact .inr ⟨heq, id⟩
  · obtain ⟨i, hi⟩ := not_forall_not.mp hG
    obtain ⟨p, hp, hlt⟩ := roundsLeft_owner (hinv t) hi
    have hs := FuturesPool.step_owner hp
    rw [← ht] at hs
    rw [Machine.trace_succ hs]
    exact hlt

/-! ## The counter -/

/-- **The idle counter.** While `start()` runs, the counter stands still at the number of workers
asked for and the loop has not created more; it ends, and then the pool has exactly as many. From
there on `idleThreadCount()` is their number less the workers between their decrement and their
increment, and a task that throws takes its worker to the increment as well. -/
theorem idle_count (num : ℕ) :
    (∀ s, (futuresPool ε ρ num).Reachable s →
      (∀ i, s.pool.owner = .start i → s.pool.pool.length = i ∧ i ≤ poolSize num ∧
        s.pool.threadNum = (ThreadPool.initial num).threadNum) ∧
      ((∀ i, s.pool.owner ≠ .start i) →
        (s.pool.pool.length : ℤ) = (ThreadPool.initial num).threadNum ∧
        s.pool.idleThreadCount = s.pool.pool.length - s.pool.pool.countP WorkerPc.busy ∧
        0 ≤ s.pool.idleThreadCount ∧ s.pool.idleThreadCount ≤ s.pool.pool.length) ∧
      ∀ i t outcome, s.pool.pool[i]? = some (.run t) →
        ∃ s', s.step (.task i outcome) = some s' ∧ s'.pool.pool[i]? = some .increment ∧
          s'.results t = some outcome) ∧
    ∀ sched : ℕ → FuturesAction ε ρ, Machine.Fair (· = .pool .owner) sched →
      ∃ t, ∀ i, ((futuresPool ε ρ num).trace ⟨.initial num, fun _ => none⟩ sched t).pool.owner ≠
        .start i := by
  refine ⟨fun s hr => ⟨fun i ho => ?_, fun ho => ?_, ?_⟩, fun sched => start_returns num⟩
  · have h := counted_of_reachable hr
    have hi := h.starting i ho
    have hbal := h.balance
    rw [hi.countP_busy] at hbal
    rw [initial_threadNum]
    exact ⟨hi.length, hi.le, by omega⟩
  · have h := counted_of_reachable hr
    have hlen := h.built ho
    have hbal := h.balance
    have hle : s.pool.pool.countP WorkerPc.busy ≤ s.pool.pool.length := List.countP_le_length
    rw [initial_threadNum]
    unfold ThreadPool.idleThreadCount
    refine ⟨?_, ?_, ?_, ?_⟩ <;> omega
  · intro i t outcome hi
    exact FuturesPool.step_task hi outcome

end Futures

/-- Two workers, one of which has executed a task that threw and not incremented yet. -/
theorem idle_count_thrown : ∃ s : FuturesPool ℕ ℕ, s.results 0 = some (.error 7) ∧
    s.pool.idleThreadCount = 1 ∧
    s.pool.idleThreadCount = s.pool.pool.length - s.pool.pool.countP WorkerPc.busy := by
  obtain ⟨s, hs, ho, hres, hidle⟩ : ∃ s, (futuresPool ℕ ℕ 2).run ⟨.initial 2, fun _ => none⟩
      [.pool .owner, .pool .owner, .pool .owner, .pool .call, .pool (.commit 0 none),
        .pool (.commit 0 none), .pool (.commit 0 none), .pool (.worker 0), .pool (.worker 0),
        .pool (.worker 0), .pool (.worker 0), .pool (.worker 0), .task 0 (.error 7)] = some s ∧
      s.pool.owner = .ready ∧ s.results 0 = some (.error 7) ∧ s.pool.idleThreadCount = 1 :=
    ⟨_, rfl, rfl, rfl, rfl⟩
  have hr := Machine.Reachable.run (.init rfl) hs
  exact ⟨s, hres, hidle, (((idle_count 2).1 s hr).2.1 (by simp [ho])).2.1⟩

end SelfStudy.Pool
