import SelfStudy.Pool.Invariants

/-!
# Stopping the thread pool

`stop()` stores `stop_`, broadcasts and joins, without the mutex. Two things go wrong with that.

The broadcast misses a worker that has found its predicate false and not yet fallen asleep. This
worker sleeps on, and `stop()` waits for it. `stop_wakes_workers` says that the broadcast finding no
worker in this window is all that is needed: then no worker is left asleep and `stop()` can return.

The loop condition of a worker is `!stop_`, so each worker takes at most one more task after the
store. `stop_runs_accepted` says exactly when this is enough for every accepted task to be run.
-/

namespace SelfStudy.Pool

open Lib

/-- `stop()` is past `notify_all`. -/
def OwnerPc.notified : OwnerPc → Bool
  | .join _ | .joined => true
  | _ => false

namespace ThreadPool

variable {num : ℕ} {s s' : ThreadPool} {a : Action}

/-! ## No worker left asleep -/

/-- No worker is asleep or about to fall asleep. -/
def Awake (s : ThreadPool) : Prop := ∀ pc ∈ s.pool, pc ≠ .blocking ∧ pc ≠ .asleep

/-- If the step is the broadcast, no worker is between its predicate and its sleep. -/
def BroadcastReaches (s : ThreadPool) (a : Action) : Prop :=
  a = .owner → s.owner = .notifyAll → .blocking ∉ s.pool

instance (s : ThreadPool) (a : Action) : Decidable (s.BroadcastReaches a) :=
  inferInstanceAs (Decidable (_ → _ → _))

theorem stopping_of_notified {o : OwnerPc} (h : o.notified = true) : o.stopping = true := by
  cases o <;> simp_all [OwnerPc.notified, OwnerPc.stopping]

theorem notified_step (ho : s.owner.notified = true) (hs : Step s a s') :
    s'.owner.notified = true := by
  cases hs <;> first | exact ho | simp_all [OwnerPc.notified]

/-- Once `stop_` is set the predicate holds, so nobody falls asleep any more. -/
theorem awake_step (hi : s.Inv) (ho : s.owner.notified = true) (h : s.Awake) (hs : Step s a s') :
    s'.Awake := by
  have hstop : s.stop = true := hi.stop_eq.trans (stopping_of_notified ho)
  cases hs with
  | leave => exact forall_mem_set h (by simp)
  | enter hi hs => simp [hs] at hstop
  | lock => exact forall_mem_set h (by simp)
  | proceed => exact forall_mem_set h (by simp)
  | block hi hs => simp [hs] at hstop
  | sleep hi => exact absurd rfl (h _ (List.mem_of_getElem? hi)).1
  | quit => exact forall_mem_set h (by simp)
  | pop => exact forall_mem_set h (by simp)
  | decrement => exact forall_mem_set h (by simp)
  | run => exact forall_mem_set h (by simp)
  | increment => exact forall_mem_set h (by simp)
  | spurious => exact forall_mem_set h (by simp)
  | notify => exact forall_mem_set h (by simp)
  | spawn ho' => simp [ho', OwnerPc.notified] at ho
  | notifyAll ho' => simp [ho', OwnerPc.notified] at ho
  | call => exact h
  | refuse => exact h
  | checked => exact h
  | commitLock => exact h
  | push => exact h
  | notifyNone => exact h
  | started => exact h
  | store => exact h
  | join => exact h
  | joined => exact h

theorem awake_notifyAll (h : .blocking ∉ s.pool) :
    Awake { s with pool := s.pool.map wake, owner := .join 0 } := by
  intro pc hpc
  obtain ⟨pc', hpc', rfl⟩ := List.mem_map.mp hpc
  have : pc' ≠ .blocking := fun e => h (e ▸ hpc')
  cases pc' <;> simp_all [wake]

/-- The state of a stop that has reached everybody. -/
structure Finishing (s : ThreadPool) : Prop where
  inv : s.Inv
  notified : s.owner.notified = true
  awake : s.Awake

theorem Finishing.step (h : s.Finishing) (hs : Step s a s') : s'.Finishing :=
  ⟨inv_step h.inv hs, notified_step h.notified hs, awake_step h.inv h.notified h.awake hs⟩

/-- The broadcast step and what follows it, if it reaches every sleeper. -/
theorem finishing_step (hi : s.Inv) (h : s.owner.notified = true → s.Awake)
    (hC : s.BroadcastReaches a) (hs : Step s a s') (ho : s'.owner.notified = true) :
    s'.Finishing := by
  refine ⟨inv_step hi hs, ho, ?_⟩
  by_cases hn : s.owner.notified = true
  · exact awake_step hi hn (h hn) hs
  · cases hs with
    | notifyAll ho' => exact awake_notifyAll (hC rfl ho')
    | spawn => simp [OwnerPc.notified] at ho
    | started => simp [OwnerPc.notified] at ho
    | store => simp [OwnerPc.notified] at ho
    | join ho' => simp [ho', OwnerPc.notified] at hn
    | joined ho' => simp [ho', OwnerPc.notified] at hn
    | _ => exact absurd ho hn

/-! ## Joining everybody -/

theorem leads_of_step (h : s.step a = some s') : (threadPool num).Leads s s' :=
  Machine.Leads.of_step h

/-- How many steps a worker is from having left its loop, once `stop_` is set. -/
def rank : WorkerPc → ℕ
  | .exited | .blocking | .asleep => 0
  | .loop => 1
  | .increment => 2
  | .run _ => 3
  | .decrement _ => 4
  | .take => 5
  | .pred => 6
  | .lock | .woken => 7

/-- A call of `commit` holds the mutex, about to push. -/
def pushing (s : ThreadPool) : ℕ :=
  match s.mutex with
  | some (.commit _) => 1
  | _ => 0

/-- The steps left until `stop()` has joined all workers. -/
def work (s : ThreadPool) : ℕ :=
  (s.pool.map rank).sum + s.pushing +
    match s.owner with
    | .join i => s.pool.length - i + 1
    | _ => 0

/-- The steps that bring a stop to its end: of workers, of the owner and of a call of `commit` that
holds the mutex. -/
def Quiet (s : ThreadPool) (a : Action) : Prop :=
  (∃ i, a = .worker i) ∨ a = .owner ∨ ∃ t, a = .commit t none ∧ s.commits[t]? = some .push

theorem work_setWorker {i : ℕ} {pc x : WorkerPc} (hi : s.pool[i]? = some pc)
    (hx : rank x < rank pc) (hp : s'.pool = s.pool.set i x) (ho : s'.owner = s.owner)
    (hm : s'.pushing ≤ s.pushing) : s'.work < s.work := by
  have := sum_map_set rank hi x
  unfold work
  rw [hp, ho, List.length_set]
  omega

/-- A worker that does not wait for the mutex has a step. -/
theorem worker_progress (h : s.Finishing) {i : ℕ} {pc : WorkerPc} (hi : s.pool[i]? = some pc)
    (hpc : pc ≠ .exited) (hm : pc = .lock ∨ pc = .woken → s.mutex = none) :
    ∃ s', s.step (.worker i) = some s' ∧ s'.work < s.work := by
  have hstop : s.stop = true := h.inv.stop_eq.trans (stopping_of_notified h.notified)
  have haw := h.awake pc (List.mem_of_getElem? hi)
  have hstep : s.step (.worker i) = s.workerStep i pc := by simp [step, hi]
  rw [hstep]
  cases pc with
  | loop =>
    refine ⟨_, rfl, work_setWorker hi (x := .exited) ?_ ?_ rfl le_rfl⟩
    · simp [rank]
    · simp [hstop]
  | lock =>
    refine ⟨_, if_pos (hm (.inl rfl)), work_setWorker hi (x := .pred) ?_ rfl rfl ?_⟩
    · simp [rank]
    · exact Nat.zero_le _
  | pred =>
    refine ⟨_, rfl, work_setWorker hi (x := .take) ?_ ?_ rfl le_rfl⟩
    · simp [rank]
    · simp [hstop]
  | blocking => exact absurd rfl haw.1
  | asleep => exact absurd rfl haw.2
  | woken =>
    refine ⟨_, if_pos (hm (.inr rfl)), work_setWorker hi (x := .pred) ?_ rfl rfl ?_⟩
    · simp [rank]
    · exact Nat.zero_le _
  | take =>
    simp only [workerStep]
    cases s.tasks with
    | nil => exact ⟨_, rfl, work_setWorker hi (x := .exited) (by simp [rank]) rfl rfl (Nat.zero_le _)⟩
    | cons t ts =>
      exact ⟨_, rfl, work_setWorker hi (x := .decrement t) (by simp [rank]) rfl rfl (Nat.zero_le _)⟩
  | decrement t => exact ⟨_, rfl, work_setWorker hi (x := .run t) (by simp [rank]) rfl rfl le_rfl⟩
  | run t => exact ⟨_, rfl, work_setWorker hi (x := .increment) (by simp [rank]) rfl rfl le_rfl⟩
  | increment => exact ⟨_, rfl, work_setWorker hi (x := .loop) (by simp [rank]) rfl rfl le_rfl⟩
  | exited => exact absurd rfl hpc

/-- The call of `commit` that holds the mutex can push. -/
theorem push_progress {t : ℕ} (hi : s.Inv) (hm : s.mutex = some (.commit t)) :
    s.commits[t]? = some .push ∧
      s.step (.commit t none) =
        some ({ s with tasks := s.tasks ++ [t], mutex := none }.setCommit t .notify) ∧
      ({ s with tasks := s.tasks ++ [t], mutex := none }.setCommit t .notify).work < s.work := by
  have ht : s.commits[t]? = some .push := (hi.exclusive _).mp hm
  refine ⟨ht, by simp [step, ht, commitStep], ?_⟩
  show (s.pool.map rank).sum + 0 + _ < _
  unfold work pushing
  rw [hm]
  simp only [setCommit_owner, setCommit_pool]
  omega

/-- **Progress.** A stop that has reached everybody has a step towards its end: the worker it waits
for moves, or whoever holds the mutex that this worker waits for. -/
theorem finishing_progress (h : s.Finishing) (hj : s.owner ≠ .joined) :
    ∃ a s', s.step a = some s' ∧ s.Quiet a ∧ s'.work < s.work := by
  have hworker : ∀ {i : ℕ} {pc : WorkerPc}, s.pool[i]? = some pc → pc ≠ .exited →
      (pc = .lock ∨ pc = .woken → s.mutex = none) →
      ∃ a s', s.step a = some s' ∧ s.Quiet a ∧ s'.work < s.work := fun hi hpc hm =>
    let ⟨s', hs', hw⟩ := worker_progress h hi hpc hm
    ⟨_, s', hs', .inl ⟨_, rfl⟩, hw⟩
  obtain ⟨k, ho⟩ : ∃ k, s.owner = .join k := by
    have hn := h.notified
    cases ho : s.owner <;> simp_all [OwnerPc.notified]
  cases hk : s.pool[k]? with
  | none =>
    refine ⟨.owner, { s with owner := .joined }, by simp [step, ownerStep, ho, hk], .inr (.inl rfl),
      ?_⟩
    unfold work pushing
    rw [ho]
    dsimp only
    omega
  | some pc =>
    by_cases hpc : pc = .exited
    · subst hpc
      refine ⟨.owner, { s with owner := .join (k + 1) }, by simp [step, ownerStep, ho, hk],
        .inr (.inl rfl), ?_⟩
      have hlt : k < s.pool.length := (List.getElem?_eq_some_iff.mp hk).1
      unfold work pushing
      rw [ho]
      dsimp only
      omega
    · by_cases hw : pc = .lock ∨ pc = .woken
      · cases hm : s.mutex with
        | none => exact hworker hk hpc fun _ => hm
        | some holder =>
          cases holder with
          | worker j =>
            obtain ⟨pc', hj', hin⟩ := (h.inv.exclusive _).mp hm
            refine hworker hj' ?_ ?_
            · rintro rfl; simp [WorkerPc.inSection] at hin
            · rintro (rfl | rfl) <;> simp [WorkerPc.inSection] at hin
          | commit t =>
            obtain ⟨ht, hstep, hlt⟩ := push_progress h.inv hm
            exact ⟨_, _, hstep, .inr (.inr ⟨t, rfl, ht⟩), hlt⟩
      · exact hworker hk hpc fun e => absurd e hw

/-- From a stop that has reached everybody, quiet steps lead to its end; what they keep still holds
there. -/
theorem finishing_joins {J : ThreadPool → Prop}
    (hJ : ∀ s a s', s.Finishing → J s → s.Quiet a → Step s a s' → J s') (h : s.Finishing)
    (hs : J s) : ∃ t, (threadPool num).Leads s t ∧ (t.Finishing ∧ J t) ∧ t.owner = .joined := by
  refine Machine.exists_leads_of_measure (M := threadPool num)
    (I := fun s => s.Finishing ∧ J s) (G := fun s => s.owner = .joined) work ?_ s ⟨h, hs⟩
  rintro s ⟨h, hs⟩ hj
  obtain ⟨a, s', hstep, hq, hlt⟩ := finishing_progress h hj
  have hc := step_cases hstep
  exact ⟨a, s', hstep, ⟨h.step hc, hJ s a s' h hs hq hc⟩, hlt⟩

/-! ## Tasks left behind -/

/-- The worker has passed `while (!stop_)` and not taken a task yet, so it will take one more. -/
def willTake : WorkerPc → Bool
  | .lock | .pred | .blocking | .asleep | .woken | .take => true
  | _ => false

/-- The tasks in `tasks_`, and the one about to be pushed. -/
def queued (s : ThreadPool) : ℕ := s.tasks.length + s.pushing

def takers (s : ThreadPool) : ℕ := s.pool.countP willTake

/-- A call of `commit` has passed its check of `stop_` and does not have the mutex yet. -/
def Entering (s : ThreadPool) : Prop := ∃ t : ℕ, s.commits[t]? = some CommitPc.lock

instance (s : ThreadPool) : Decidable s.Entering :=
  decidable_of_iff (.lock ∈ s.commits) List.mem_iff_getElem?

/-- No call of `commit` is on its way to the mutex, and there are enough workers that will take one
more task for those that are queued. -/
def Covered (s : ThreadPool) : Prop := ¬ s.Entering ∧ s.queued ≤ s.takers

/-- If the step is the store to `stop_`, the tasks are covered. -/
def StopsCovered (s : ThreadPool) (a : Action) : Prop :=
  a = .owner → s.owner = .ready → s.Covered

instance (s : ThreadPool) (a : Action) : Decidable (s.StopsCovered a) :=
  inferInstanceAs (Decidable (_ → _ → ¬ _ ∧ _))

theorem pushing_of_section (h : s.Exclusive) {i : ℕ} {pc : WorkerPc} (hi : s.pool[i]? = some pc)
    (hpc : pc.inSection = true) : s.pushing = 0 := by
  have hm := (h (.worker i)).mpr ⟨pc, hi, hpc⟩
  unfold pushing
  rw [hm]

theorem pushing_of_push (h : s.Exclusive) {t : ℕ} (ht : s.commits[t]? = some .push) :
    s.pushing = 1 := by
  have hm := (h (.commit t)).mpr ht
  unfold pushing
  rw [hm]

theorem pushing_of_free (h : s.mutex = none) : s.pushing = 0 := by
  unfold pushing
  rw [h]

theorem balance_setWorker {i : ℕ} {pc x : WorkerPc} (hi : s.pool[i]? = some pc)
    (hp : s'.pool = s.pool.set i x)
    (hq : s'.queued + (if willTake pc then 1 else 0) = s.queued + if willTake x then 1 else 0) :
    s'.queued + s.takers = s.queued + s'.takers := by
  have := countP_set_add willTake hi x
  unfold takers
  rw [hp]
  omega

/-- **Balance.** After the store, a step that lets no call of `commit` have the mutex takes a task
off the queue exactly if it uses up a worker, unless the queue is empty. -/
theorem balance_step (hI : s.Inv) (ho : s.owner.stopping = true)
    (hn : ∀ t w, a = .commit t w → s.commits[t]? ≠ some .lock) (hs : Step s a s') :
    s'.queued + s.takers = s.queued + s'.takers ∨ s.queued = 0 ∧ s'.queued = 0 := by
  have hstop : s.stop = true := hI.stop_eq.trans ho
  cases hs with
  | leave hi => exact .inl (balance_setWorker hi rfl rfl)
  | enter hi hs => simp [hs] at hstop
  | lock hi hpc hm =>
    refine .inl (balance_setWorker hi rfl ?_)
    show s.tasks.length + 0 + _ = s.tasks.length + s.pushing + _
    rw [pushing_of_free hm]
    rcases hpc with rfl | rfl <;> rfl
  | proceed hi => exact .inl (balance_setWorker hi rfl rfl)
  | block hi hs => simp [hs] at hstop
  | sleep hi =>
    refine .inl (balance_setWorker hi rfl ?_)
    show s.tasks.length + 0 + _ = s.tasks.length + s.pushing + _
    rw [pushing_of_section hI.exclusive hi rfl]
    rfl
  | quit hi ht =>
    right
    show s.tasks.length + s.pushing = 0 ∧ s.tasks.length + 0 = 0
    rw [pushing_of_section hI.exclusive hi rfl, ht]
    exact ⟨rfl, rfl⟩
  | @pop i t ts hi ht =>
    refine .inl (balance_setWorker hi rfl ?_)
    show ts.length + 0 + 1 = s.tasks.length + s.pushing + 0
    rw [pushing_of_section hI.exclusive hi rfl, ht]
    rfl
  | decrement hi => exact .inl (balance_setWorker hi rfl rfl)
  | run hi => exact .inl (balance_setWorker hi rfl rfl)
  | increment hi => exact .inl (balance_setWorker hi rfl rfl)
  | spurious hi => exact .inl (balance_setWorker hi rfl rfl)
  | call => exact .inl rfl
  | refuse => exact .inl rfl
  | checked ht hs => simp [hs] at hstop
  | commitLock ht => exact absurd ht (hn _ _ rfl)
  | @push t w ht =>
    left
    show (s.tasks ++ [t]).length + 0 + s.takers = s.tasks.length + s.pushing + s.takers
    rw [pushing_of_push hI.exclusive ht, List.length_append]
    rfl
  | notify ht hi => exact .inl (balance_setWorker hi rfl rfl)
  | notifyNone => exact .inl rfl
  | spawn ho' => simp [ho', OwnerPc.stopping] at ho
  | started ho' => simp [ho', OwnerPc.stopping] at ho
  | store ho' => simp [ho', OwnerPc.stopping] at ho
  | notifyAll =>
    left
    have hw : (willTake ∘ wake) = willTake := by
      funext pc; cases pc <;> rfl
    show s.queued + s.takers = s.queued + (s.pool.map wake).countP willTake
    rw [List.countP_map, hw]
    rfl
  | join => exact .inl rfl
  | joined => exact .inl rfl

/-- After the store no further call of `commit` gets on its way. -/
theorem entering_of_step (hstop : s.stop = true) (hs : Step s a s') (h : s'.Entering) :
    s.Entering := by
  obtain ⟨u, hu⟩ := h
  have hset : ∀ {t : ℕ} {x : CommitPc}, x ≠ .lock → (s.commits.set t x)[u]? = some .lock →
      s.Entering := fun hx hu =>
    (mem_of_getElem?_set hu).elim (fun e => absurd e.2.symm hx) fun e => ⟨u, e.2⟩
  cases hs with
  | call =>
    rw [getElem?_snoc] at hu
    split_ifs at hu with e
    · simp at hu
    · exact ⟨u, hu⟩
  | refuse => exact hset (by simp) hu
  | checked ht hs => simp [hs] at hstop
  | commitLock => exact hset (by simp) hu
  | push => exact hset (by simp) hu
  | notify => exact hset (by simp) hu
  | notifyNone => exact hset (by simp) hu
  | _ => exact ⟨u, hu⟩

theorem covered_step (hI : s.Inv) (ho : s.owner.stopping = true) (h : s.Covered)
    (hs : Step s a s') : s'.Covered := by
  refine ⟨fun he => h.1 (entering_of_step (hI.stop_eq.trans ho) hs he), ?_⟩
  have hle := h.2
  have := balance_step hI ho (fun t _ _ ht => h.1 ⟨t, ht⟩) hs
  omega

/-- The store and what follows it, if it finds the tasks covered. -/
theorem stopsCovered_step (hI : s.Inv) (h : s.owner.stopping = true → s.Covered)
    (hC : s.StopsCovered a) (hs : Step s a s') (ho : s'.owner.stopping = true) : s'.Covered := by
  by_cases hn : s.owner.stopping = true
  · exact covered_step hI hn (h hn) hs
  · cases hs with
    | store ho' => exact hC rfl ho'
    | spawn => simp [OwnerPc.stopping] at ho
    | started => simp [OwnerPc.stopping] at ho
    | notifyAll ho' => simp [ho', OwnerPc.stopping] at hn
    | join ho' => simp [ho', OwnerPc.stopping] at hn
    | joined ho' => simp [ho', OwnerPc.stopping] at hn
    | _ => exact absurd ho hn

/-- A covered stop that has joined everybody leaves no task behind. -/
theorem tasks_of_joined (hI : s.Inv) (h : s.Covered) (ho : s.owner = .joined) : s.tasks = [] := by
  have ht : s.takers = 0 := by
    refine List.countP_eq_zero.mpr fun pc hpc => ?_
    rw [hI.joined.2 ho pc hpc]
    simp [willTake]
  have hq := h.2
  rw [ht, queued] at hq
  exact List.length_eq_zero_iff.mp (by omega)

/-- After the join a task that was pushed is in `tasks_` or has been run. -/
theorem ran_of_joined (hI : s.Inv) (ho : s.owner = .joined) {t : ℕ}
    (ht : s.commits[t]? = some .accepted) :
    s.tasks.count t + s.ran.countP (fun r => r.1 == t) = 1 := by
  have hh : s.pool.countP (WorkerPc.holdsTask t) = 0 := by
    refine List.countP_eq_zero.mpr fun pc hpc => ?_
    rw [hI.joined.2 ho pc hpc]
    simp [WorkerPc.holdsTask]
  have hc := hI.conserved t
  rw [ht, hh] at hc
  simpa [CommitPc.pushed] using hc

/-! ## Dropping a task -/

/-- Some call of `commit` is on its way to the mutex, or more tasks are queued than will be taken. -/
def Uncovered (s : ThreadPool) : Prop := s.Entering ∨ s.takers < s.queued

theorem uncovered_iff : s.Uncovered ↔ ¬ s.Covered := by
  unfold Uncovered Covered
  rw [not_and_or, not_not, not_le]

/-- `stop()` has joined everybody and a task with a valid future has not been run. -/
def Dropped (s : ThreadPool) : Prop :=
  s.owner = .joined ∧ ∃ t : ℕ, s.commits[t]? = some .accepted ∧ s.ran.countP (fun r => r.1 == t) = 0

/-- Quiet steps let no call of `commit` have the mutex that waits for it. -/
theorem uncovered_quiet (h : s.Finishing) (hu : s.Uncovered) (hq : s.Quiet a) (hs : Step s a s') :
    s'.Uncovered := by
  have hn : ∀ t w, a = .commit t w → s.commits[t]? = some .push := by
    rintro t w rfl
    rcases hq with ⟨i, hi⟩ | hi | ⟨u, hu, hp⟩
    · cases hi
    · cases hi
    · obtain ⟨rfl, -⟩ := Action.commit.inj hu
      exact hp
  rcases hu with ⟨u, hu⟩ | hlt
  · left
    refine ⟨u, ?_⟩
    have hset : ∀ {t w} {x : CommitPc}, a = .commit t w →
        (s.commits.set t x)[u]? = some .lock := by
      intro t w x ha
      have hne : t ≠ u := by
        rintro rfl
        rw [hn t w ha] at hu
        cases hu
      rw [List.getElem?_set_ne hne, hu]
    cases hs with
    | call => simp [Quiet] at hq
    | refuse => exact hset rfl
    | checked => exact hset rfl
    | commitLock => exact hset rfl
    | push => exact hset rfl
    | notify => exact hset rfl
    | notifyNone => exact hset rfl
    | _ => exact hu
  · right
    have := balance_step h.inv (stopping_of_notified h.notified)
      (fun t w ha ht => by rw [hn t w ha] at ht; cases ht) hs
    omega

/-- No worker is asleep after the join. -/
theorem asleep_of_joined (hI : s.Inv) (ho : s.owner = .joined) : .asleep ∉ s.pool :=
  fun hm => absurd (hI.joined.2 ho _ hm) (by simp)

theorem dropped_of_notify (hI : s.Inv) (ho : s.owner = .joined) {t : ℕ}
    (ht : s.commits[t]? = some .notify) (hr : s.ran.countP (fun r => r.1 == t) = 0) :
    ∃ s', (threadPool num).Leads s s' ∧ s'.Dropped := by
  have hlt : t < s.commits.length := (List.getElem?_eq_some_iff.mp ht).1
  refine ⟨s.setCommit t .accepted, leads_of_step (a := .commit t none) ?_, ho, t,
    List.getElem?_set_self hlt, hr⟩
  show s.commits[t]?.bind _ = _
  rw [ht]
  exact if_neg (asleep_of_joined hI ho)

theorem dropped_of_push (hI : s.Inv) (ho : s.owner = .joined) {t : ℕ}
    (ht : s.commits[t]? = some .push) : ∃ s', (threadPool num).Leads s s' ∧ s'.Dropped := by
  have hlt : t < s.commits.length := (List.getElem?_eq_some_iff.mp ht).1
  have hstep : s.step (.commit t none) =
      some ({ s with tasks := s.tasks ++ [t], mutex := none }.setCommit t .notify) := by
    show s.commits[t]?.bind _ = _
    rw [ht]
    rfl
  have hr : s.ran.countP (fun r => r.1 == t) = 0 := by
    have := hI.conserved t
    rw [ht] at this
    simp only [Option.any_some, CommitPc.pushed, Bool.false_eq_true, if_false] at this
    omega
  obtain ⟨s', hl, hd⟩ := dropped_of_notify (inv_step hI (step_cases hstep)) ho
    (List.getElem?_set_self hlt) hr
  exact ⟨s', (leads_of_step hstep).trans hl, hd⟩

theorem dropped_of_lock (hI : s.Inv) (ho : s.owner = .joined) (hm : s.mutex = none) {t : ℕ}
    (ht : s.commits[t]? = some .lock) : ∃ s', (threadPool num).Leads s s' ∧ s'.Dropped := by
  have hlt : t < s.commits.length := (List.getElem?_eq_some_iff.mp ht).1
  have hstep : s.step (.commit t none) =
      some ((s.setMutex (some (.commit t))).setCommit t .push) := by
    show s.commits[t]?.bind _ = _
    rw [ht]
    exact if_pos hm
  obtain ⟨s', hl, hd⟩ := dropped_of_push (inv_step hI (step_cases hstep)) ho
    (List.getElem?_set_self hlt)
  exact ⟨s', (leads_of_step hstep).trans hl, hd⟩

/-- A task in `tasks_` after the join is never run, and the call that pushed it can return. -/
theorem dropped_of_mem (hI : s.Inv) (ho : s.owner = .joined) {t : ℕ} (ht : t ∈ s.tasks) :
    ∃ s', (threadPool num).Leads s s' ∧ s'.Dropped := by
  have hc := hI.conserved t
  have hpos : 0 < s.tasks.count t := List.count_pos_iff.mpr ht
  split_ifs at hc with hp
  · obtain ⟨pc, hpc, hpushed⟩ := (Option.any_eq_true _ _).mp hp
    cases pc with
    | notify => exact dropped_of_notify hI ho hpc (by omega)
    | accepted => exact ⟨s, .refl s, ho, t, hpc, by omega⟩
    | check => simp [CommitPc.pushed] at hpushed
    | lock => simp [CommitPc.pushed] at hpushed
    | push => simp [CommitPc.pushed] at hpushed
    | refused => simp [CommitPc.pushed] at hpushed
  · omega

/-- The end of an uncovered stop: a task is left in `tasks_`, or still on its way there. -/
theorem dropped_of_uncovered (hI : s.Inv) (hu : s.Uncovered) (ho : s.owner = .joined) :
    ∃ s', (threadPool num).Leads s s' ∧ s'.Dropped := by
  cases hm : s.mutex with
  | some holder =>
    have hh := (hI.exclusive holder).mp hm
    cases holder with
    | commit t => exact dropped_of_push hI ho hh
    | worker i =>
      obtain ⟨pc, hi, hin⟩ := hh
      rw [hI.joined.2 ho pc (List.mem_of_getElem? hi)] at hin
      simp [WorkerPc.inSection] at hin
  | none =>
    rcases hu with ⟨t, ht⟩ | hlt
    · exact dropped_of_lock hI ho hm ht
    · have hq : s.queued = s.tasks.length := by
        rw [queued, pushing_of_free hm, Nat.add_zero]
      obtain ⟨t, ht⟩ := List.exists_mem_of_length_pos (l := s.tasks) (by omega)
      exact dropped_of_mem hI ho ht

/-- From an uncovered state in which nobody is about to fall asleep, `stop()` drops a task. -/
theorem drops_of_awake (hI : s.Inv) (ho : s.owner = .ready) (hb : .blocking ∉ s.pool)
    (hu : s.Uncovered) : ∃ s', (threadPool num).Leads s s' ∧ s'.Dropped := by
  have hstore : s.step .owner =
      some { s with stop := true, owner := .notifyAll } := by
    simp [step, ownerStep, ho]
  have hcast : step { s with stop := true, owner := .notifyAll } .owner =
      some { s with stop := true, pool := s.pool.map wake, owner := .join 0 } := rfl
  have hI1 := inv_step hI (step_cases hstore)
  have hfin := finishing_step hI1 (by simp [OwnerPc.notified]) (fun _ _ => hb) (step_cases hcast)
    rfl
  have hu2 : Uncovered { s with stop := true, pool := s.pool.map wake, owner := .join 0 } := by
    refine hu.imp id fun hlt => ?_
    have := balance_step hI1 rfl (by simp) (step_cases hcast)
    have : queued { s with stop := true, owner := .notifyAll } = s.queued := rfl
    have : takers { s with stop := true, owner := .notifyAll } = s.takers := rfl
    omega
  obtain ⟨t, hl, ⟨hfin', hu'⟩, hj⟩ := finishing_joins (J := Uncovered)
    (fun _ _ _ h hu hq hs => uncovered_quiet h hu hq hs) hfin hu2
  obtain ⟨s', hl', hd⟩ := dropped_of_uncovered hfin'.inv hu' hj
  exact ⟨s', (leads_of_step hstore).trans ((leads_of_step hcast).trans
    (hl.trans hl')), hd⟩

/-- From every uncovered state in which `stop()` is about to store, a task can be dropped. -/
theorem drops_of_uncovered (hI : s.Inv) (ho : s.owner = .ready) (hu : s.Uncovered) :
    ∃ s', (threadPool num).Leads s s' ∧ s'.Dropped := by
  by_cases hb : .blocking ∈ s.pool
  · -- the worker that holds the mutex falls asleep first
    obtain ⟨i, hi⟩ := List.mem_iff_getElem?.mp hb
    have hstep : s.step (.worker i) =
        some ((s.setMutex none).setWorker i .asleep) := by
      show s.pool[i]?.bind _ = _
      rw [hi]
      rfl
    have hq : s.pushing = 0 := pushing_of_section hI.exclusive hi rfl
    have hbal : ((s.setMutex none).setWorker i .asleep).queued + s.takers =
        s.queued + ((s.setMutex none).setWorker i .asleep).takers := by
      refine balance_setWorker hi rfl ?_
      show s.tasks.length + 0 + _ = s.tasks.length + s.pushing + _
      rw [hq]
      rfl
    have hb' : .blocking ∉ ((s.setMutex none).setWorker i .asleep).pool := by
      intro hm
      obtain ⟨j, hj⟩ := List.mem_iff_getElem?.mp hm
      rcases mem_of_getElem?_set hj with ⟨-, e⟩ | ⟨hne, hj⟩
      · cases e
      · have h1 := (hI.exclusive (.worker i)).mpr ⟨_, hi, rfl⟩
        have h2 := (hI.exclusive (.worker j)).mpr ⟨_, hj, rfl⟩
        rw [h1] at h2
        exact hne (Holder.worker.inj (Option.some.inj h2)).symm
    obtain ⟨s', hl, hd⟩ := drops_of_awake (inv_step hI (step_cases hstep)) ho hb'
      (hu.imp id fun hlt => by omega)
    exact ⟨s', (leads_of_step hstep).trans hl, hd⟩
  · exact drops_of_awake hI ho hb hu

end ThreadPool

open ThreadPool

/-- **Stopping wakes everybody** in every run in which the broadcast finds no worker between its
predicate and its sleep, and the join loop can then complete; from any state in which it finds one,
a run leads to a worker asleep after the broadcast. -/
theorem stop_wakes_workers (num : ℕ) :
    (∀ s, (threadPool num).ReachableIf BroadcastReaches s → s.owner.notified = true →
      .asleep ∉ s.pool ∧ ∃ t, (threadPool num).Leads s t ∧ t.owner = .joined) ∧
    ∀ s, (threadPool num).Reachable s → s.owner = .notifyAll → .blocking ∈ s.pool →
      ∃ t, (threadPool num).Leads s t ∧ t.owner.notified = true ∧ .asleep ∈ t.pool := by
  constructor
  · intro s hs ho
    have hfin : s.owner.notified = true → s.Finishing := by
      refine hs.invariant (P := fun s => s.owner.notified = true → s.Finishing) ?_ ?_
      · rintro _ rfl ho
        simp [initial, OwnerPc.notified] at ho
      · intro s a s' hr ih hC hstep ho'
        exact finishing_step (inv_of_reachable hr) (fun h => (ih h).awake) hC (step_cases hstep) ho'
    refine ⟨fun hm => ((hfin ho).awake _ hm).2 rfl, ?_⟩
    obtain ⟨t, hl, -, ht⟩ := finishing_joins (J := fun _ => True)
      (fun _ _ _ _ _ _ _ => trivial) (hfin ho) trivial
    exact ⟨t, hl, ht⟩
  · intro s _ ho hb
    obtain ⟨i, hi⟩ := List.mem_iff_getElem?.mp hb
    -- the broadcast passes the worker by, which then falls asleep
    have hcast : s.step .owner = some { s with pool := s.pool.map wake, owner := .join 0 } := by
      simp [step, ownerStep, ho]
    have hi' : (s.pool.map wake)[i]? = some .blocking := by simp [hi, wake]
    have hsleep : step { s with pool := s.pool.map wake, owner := .join 0 } (.worker i) =
        some ({ s with pool := s.pool.map wake, owner := .join 0, mutex := none }.setWorker i
          .asleep) := by
      simp only [step, hi']
      rfl
    refine ⟨_, (leads_of_step hcast).trans (leads_of_step hsleep), rfl, ?_⟩
    have hlt : i < (s.pool.map wake).length := (List.getElem?_eq_some_iff.mp hi').1
    exact List.mem_of_getElem? (List.getElem?_set_self hlt)

/-- One worker sleeps and the other one has just been started when `stop()` broadcasts; both are
joined. -/
theorem stop_wakes_workers_joined : ∃ as s, (threadPool 2).run (.initial 2) as = some s ∧
    (threadPool 2).AllSteps BroadcastReaches (.initial 2) as ∧ s.owner = .joined ∧
    .asleep ∉ s.pool := by
  have hC : (threadPool 2).AllSteps BroadcastReaches (.initial 2) [.owner, .owner, .owner, .worker 0,
    .worker 0, .worker 0, .worker 0, .owner, .owner, .worker 0, .worker 0, .worker 0, .worker 1,
    .owner, .owner, .owner] := by decide
  have hs := Machine.ReachableIf.run (.init rfl) hC rfl
  exact ⟨_, _, rfl, hC, rfl, ((stop_wakes_workers 2).1 _ hs rfl).1⟩

/-- One worker finds its predicate false; then `stop()` stores and broadcasts, and the worker falls
asleep. -/
theorem stop_misses_worker : ∃ as s, (threadPool 2).run (.initial 2) as = some s ∧
    (∀ i, Action.spurious i ∉ as) ∧ s.owner.notified = true ∧ .asleep ∈ s.pool := by
  refine ⟨[.owner, .owner, .owner, .worker 0, .worker 0, .worker 0, .owner, .owner, .worker 0],
    _, rfl, ?_, by decide, by decide⟩
  intro i
  simp

/-- **Stopping runs what was accepted.** No task is ever run twice; and in every run in which the
store of `stop()` finds the tasks covered, every task with a valid future has been run once when the
workers are joined; from any state in which it does not, a run leads to a join that drops one. -/
theorem stop_runs_accepted (num : ℕ) :
    (∀ s t, (threadPool num).Reachable s → s.ran.countP (fun r => r.1 == t) ≤ 1) ∧
    (∀ s t, (threadPool num).ReachableIf StopsCovered s → s.owner = .joined →
      s.commits[t]? = some .accepted → s.ran.countP (fun r => r.1 == t) = 1) ∧
    ∀ s, (threadPool num).Reachable s → s.owner = .ready → ¬ s.Covered →
      ∃ s' t, (threadPool num).Leads s s' ∧ s'.owner = .joined ∧
        s'.commits[t]? = some .accepted ∧ s'.ran.countP (fun r => r.1 == t) = 0 := by
  refine ⟨?_, ?_, ?_⟩
  · intro s t hs
    have := (inv_of_reachable hs).conserved t
    split_ifs at this <;> omega
  · intro s t hs ho ht
    have hcov : s.owner.stopping = true → s.Covered := by
      refine hs.invariant (P := fun s => s.owner.stopping = true → s.Covered) ?_ ?_
      · rintro _ rfl ho
        simp [initial, OwnerPc.stopping] at ho
      · intro s a s' hr ih hC hstep ho'
        exact stopsCovered_step (inv_of_reachable hr) ih hC (step_cases hstep) ho'
    have hI := inv_of_reachable hs
    have hr := ran_of_joined hI ho ht
    rw [tasks_of_joined hI (hcov (by rw [ho]; rfl)) ho] at hr
    simpa using hr
  · intro s hs ho hc
    obtain ⟨s', hl, hj, t, ht, hr⟩ :=
      drops_of_uncovered (inv_of_reachable hs) ho (uncovered_iff.mpr hc)
    exact ⟨s', t, hl, hj, ht, hr⟩

/-- The worker that the task has woken has not taken it yet when `stop()` stores. -/
theorem stop_runs_accepted_joined : ∃ as s, (threadPool 2).run (.initial 2) as = some s ∧
    (threadPool 2).AllSteps StopsCovered (.initial 2) as ∧ s.owner = .joined ∧
    s.commits[0]? = some .accepted ∧ s.ran.countP (fun r => r.1 == 0) = 1 := by
  have hC : (threadPool 2).AllSteps StopsCovered (.initial 2) [.owner, .owner, .owner, .worker 0,
    .worker 0, .worker 0, .worker 0, .call, .commit 0 none, .commit 0 none, .commit 0 none,
    .commit 0 (some 0), .owner, .owner, .worker 0, .worker 0, .worker 0, .worker 0, .worker 0,
    .worker 0, .worker 0, .worker 1, .owner, .owner, .owner] := by decide
  have hs := Machine.ReachableIf.run (.init rfl) hC rfl
  exact ⟨_, _, rfl, hC, rfl, rfl, (stop_runs_accepted 2).2.1 _ 0 hs rfl rfl⟩

/-- A task is pushed, then `stop()` stores before any worker has looked at `stop_` again. -/
theorem stop_drops_task : ∃ as s, (threadPool 2).run (.initial 2) as = some s ∧
    s.owner = .joined ∧ s.commits[0]? = some .accepted ∧ s.ran = [] := by
  exact ⟨[.owner, .owner, .owner, .call, .commit 0 none, .commit 0 none, .commit 0 none,
    .commit 0 none, .owner, .owner, .worker 0, .worker 1, .owner, .owner, .owner], _, rfl, rfl, rfl,
    rfl⟩

end SelfStudy.Pool
