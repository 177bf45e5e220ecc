import SelfStudy.Pool.ThreadPool

/-!
# Invariants of the thread pool

What holds in every reachable state, whatever the schedule: `cv_mt_` has the one holder that is
inside its section (`Exclusive`), `stop_` is set exactly from the store in `stop()` on, a task that
was pushed is in `tasks_`, held by one worker or run once (`Conserved`), and `stop()` joins only
workers that have left their loop (`JoinedExited`).
-/

namespace SelfStudy.Pool

open Lib

/-- The statements a worker executes holding `cv_mt_`. -/
def WorkerPc.inSection : WorkerPc → Bool
  | .pred | .blocking | .take => true
  | _ => false

/-- The worker holds task `t`, from its pop until it has run. -/
def WorkerPc.holdsTask (t : ℕ) : WorkerPc → Bool
  | .decrement u | .run u => u == t
  | _ => false

/-- The task of the call has been pushed. -/
def CommitPc.pushed : CommitPc → Bool
  | .notify | .accepted => true
  | _ => false

/-- `stop()` has stored `stop_`. -/
def OwnerPc.stopping : OwnerPc → Bool
  | .notifyAll | .join _ | .joined => true
  | _ => false

namespace ThreadPool

variable {s s' : ThreadPool} {a : Action}

/-! ## The mutex -/

/-- The thread is inside a section of `cv_mt_`. -/
def InSection (s : ThreadPool) : Holder → Prop
  | .worker i => ∃ pc, s.pool[i]? = some pc ∧ pc.inSection = true
  | .commit t => s.commits[t]? = some .push

/-- `cv_mt_` is held by exactly the thread inside a section of it. -/
def Exclusive (s : ThreadPool) : Prop := ∀ h, s.mutex = some h ↔ s.InSection h

theorem inSection_setWorker {i : ℕ} {pc : WorkerPc} (hi : s.pool[i]? = some pc) (x : WorkerPc)
    (h : Holder) : (s.setWorker i x).InSection h ↔
      if h = .worker i then x.inSection = true else s.InSection h := by
  have hlt : i < s.pool.length := (List.getElem?_eq_some_iff.mp hi).1
  cases h with
  | commit t => simp [InSection]
  | worker j =>
    by_cases hj : j = i
    · subst hj
      simp [InSection, hlt]
    · simp [InSection, hj, List.getElem?_set_ne (Ne.symm hj)]

theorem inSection_setCommit {t : ℕ} {pc : CommitPc} (ht : s.commits[t]? = some pc) (x : CommitPc)
    (h : Holder) : (s.setCommit t x).InSection h ↔
      if h = .commit t then x = .push else s.InSection h := by
  have hlt : t < s.commits.length := (List.getElem?_eq_some_iff.mp ht).1
  cases h with
  | worker i => simp [InSection]
  | commit u =>
    by_cases hu : u = t
    · subst hu
      simp [InSection, hlt]
    · simp [InSection, hu, List.getElem?_set_ne (Ne.symm hu)]

theorem Exclusive.keep (h : s.Exclusive) (hm : s'.mutex = s.mutex)
    (hS : ∀ h, s'.InSection h ↔ s.InSection h) : s'.Exclusive := fun x => by
  rw [hm, hS]; exact h x

theorem Exclusive.acquire {y : Holder} (h : s.Exclusive) (hfree : s.mutex = none)
    (hm : s'.mutex = some y) (hS : ∀ h, s'.InSection h ↔ h = y ∨ s.InSection h) :
    s'.Exclusive := fun x => by
  have hx : ¬ s.InSection x := by rw [← h x, hfree]; simp
  rw [hm, hS, Option.some.injEq, or_iff_left hx, eq_comm]

theorem Exclusive.release {y : Holder} (h : s.Exclusive) (hy : s.InSection y)
    (hm : s'.mutex = none) (hS : ∀ h, s'.InSection h → h ≠ y ∧ s.InSection h) :
    s'.Exclusive := fun x => by
  refine iff_of_false (by simp [hm]) fun hx => ?_
  have hy' := (h y).mpr hy
  have hx' := (h x).mpr (hS x hx).2
  rw [hy'] at hx'
  exact (hS x hx).1 (Option.some.inj hx').symm

/-- A worker that is in no section before the step and in none after it. -/
theorem Exclusive.setWorker_keep {i : ℕ} {pc x : WorkerPc} (h : s.Exclusive)
    (hi : s.pool[i]? = some pc) (hx : x.inSection = pc.inSection) :
    (s.setWorker i x).Exclusive := by
  refine h.keep rfl fun y => ?_
  rw [inSection_setWorker hi]
  split_ifs with e
  · simp [e, InSection, hi, hx]
  · rfl

theorem Exclusive.setCommit_keep {t : ℕ} {pc x : CommitPc} (h : s.Exclusive)
    (ht : s.commits[t]? = some pc) (hpc : pc ≠ .push) (hx : x ≠ .push) :
    (s.setCommit t x).Exclusive := by
  refine h.keep rfl fun y => ?_
  rw [inSection_setCommit ht]
  split_ifs with e
  · simp [e, InSection, ht, hpc, hx]
  · rfl

/-- A worker leaves its section and releases the mutex. -/
theorem Exclusive.setWorker_release {i : ℕ} {pc x : WorkerPc} {ts : List ℕ} (h : s.Exclusive)
    (hi : s.pool[i]? = some pc) (hpc : pc.inSection = true) (hx : x.inSection = false) :
    ({ s with tasks := ts, mutex := none }.setWorker i x).Exclusive := by
  refine h.release (y := .worker i) ⟨pc, hi, hpc⟩ rfl fun y hy => ?_
  rw [inSection_setWorker (s := { s with tasks := ts, mutex := none }) hi] at hy
  split_ifs at hy with e
  · simp [hx] at hy
  · exact ⟨e, hy⟩

theorem exclusive_step (h : s.Exclusive) (hs : Step s a s') : s'.Exclusive := by
  cases hs with
  | leave hi => exact h.setWorker_keep hi rfl
  | enter hi => exact h.setWorker_keep hi rfl
  | @lock i pc hi hpc hm =>
    refine h.acquire hm (y := .worker i) rfl fun y => ?_
    rw [inSection_setWorker (s := s.setMutex (some (.worker i))) hi]
    split_ifs with e
    · simp [e, WorkerPc.inSection]
    · simp only [e, false_or]; rfl
  | proceed hi => exact h.setWorker_keep hi rfl
  | block hi => exact h.setWorker_keep hi rfl
  | sleep hi => exact h.setWorker_release hi rfl rfl
  | quit hi => exact h.setWorker_release hi rfl rfl
  | pop hi => exact h.setWorker_release hi rfl rfl
  | decrement hi =>
    exact Exclusive.setWorker_keep (s := { s with threadNum := s.threadNum - 1 }) h hi rfl
  | @run i t hi =>
    exact Exclusive.setWorker_keep (s := { s with ran := s.ran ++ [(t, i)] }) h hi rfl
  | increment hi =>
    exact Exclusive.setWorker_keep (s := { s with threadNum := s.threadNum + 1 }) h hi rfl
  | spurious hi => exact h.setWorker_keep hi rfl
  | call =>
    refine h.keep rfl fun y => ?_
    cases y with
    | worker i => rfl
    | commit t =>
      simp only [InSection, getElem?_snoc]
      split_ifs with e
      · simp [e]
      · rfl
  | refuse ht => exact h.setCommit_keep ht (by simp) (by simp)
  | checked ht => exact h.setCommit_keep ht (by simp) (by simp)
  | @commitLock t w ht hm =>
    refine h.acquire hm (y := .commit t) rfl fun y => ?_
    rw [inSection_setCommit (s := s.setMutex (some (.commit t))) ht]
    split_ifs with e
    · simp [e]
    · simp only [e, false_or]; rfl
  | @push t w ht =>
    refine h.release (y := .commit t) ht rfl fun y hy => ?_
    rw [inSection_setCommit (s := { s with tasks := s.tasks ++ [t], mutex := none }) ht] at hy
    split_ifs at hy with e
    exact ⟨e, hy⟩
  | notify ht hi =>
    exact Exclusive.setCommit_keep (h.setWorker_keep hi rfl) ht (by simp) (by simp)
  | notifyNone ht => exact h.setCommit_keep ht (by simp) (by simp)
  | spawn =>
    refine h.keep rfl fun y => ?_
    cases y with
    | commit t => rfl
    | worker i =>
      simp only [InSection, getElem?_snoc]
      split_ifs with e
      · simp [e, WorkerPc.inSection]
      · rfl
  | started => exact h
  | store => exact h
  | notifyAll =>
    refine h.keep rfl fun y => ?_
    cases y with
    | commit t => rfl
    | worker i =>
      simp only [InSection, List.getElem?_map]
      cases s.pool[i]? with
      | none => simp
      | some pc => cases pc <;> simp [wake, WorkerPc.inSection]
  | join => exact h
  | joined => exact h

/-! ## The stop flag -/

theorem stop_eq_step (h : s.stop = s.owner.stopping) (hs : Step s a s') :
    s'.stop = s'.owner.stopping := by
  cases hs <;> first | exact h | simp_all [OwnerPc.stopping]

/-! ## Tasks -/

/-- A task that was pushed is in `tasks_`, held by a worker or already run, in one of these places
and once. -/
def Conserved (s : ThreadPool) : Prop :=
  ∀ t, s.tasks.count t + s.pool.countP (WorkerPc.holdsTask t) +
      s.ran.countP (fun r => r.1 == t) =
    if (s.commits[t]?).any CommitPc.pushed then 1 else 0

theorem Conserved.setWorker {i : ℕ} {pc x : WorkerPc} (h : s.Conserved)
    (hi : s.pool[i]? = some pc) (hx : ∀ t, x.holdsTask t = pc.holdsTask t) :
    (s.setWorker i x).Conserved := fun t => by
  have hc := countP_set_add (WorkerPc.holdsTask t) hi x
  rw [hx t] at hc
  have := h t
  simp only [setWorker_pool, setWorker_tasks, setWorker_ran, setWorker_commits] at *
  omega

theorem Conserved.setCommit {t : ℕ} {pc x : CommitPc} (h : s.Conserved)
    (ht : s.commits[t]? = some pc) (hx : x.pushed = pc.pushed) :
    (s.setCommit t x).Conserved := fun u => by
  have hlt : t < s.commits.length := (List.getElem?_eq_some_iff.mp ht).1
  have hu := h u
  simp only [setCommit_pool, setCommit_tasks, setCommit_ran, setCommit_commits] at *
  rw [hu]
  by_cases e : u = t
  · rw [e, List.getElem?_set_self hlt, ht, Option.any_some, Option.any_some, hx]
  · rw [List.getElem?_set_ne (Ne.symm e)]

theorem conserved_step (h : s.Conserved) (hs : Step s a s') : s'.Conserved := by
  cases hs with
  | leave hi => exact h.setWorker hi fun _ => rfl
  | enter hi => exact h.setWorker hi fun _ => rfl
  | lock hi hpc =>
    refine Conserved.setWorker (s := s.setMutex _) h hi fun t => ?_
    rcases hpc with rfl | rfl <;> rfl
  | proceed hi => exact h.setWorker hi fun _ => rfl
  | block hi => exact h.setWorker hi fun _ => rfl
  | sleep hi => exact Conserved.setWorker (s := s.setMutex none) h hi fun _ => rfl
  | quit hi => exact Conserved.setWorker (s := s.setMutex none) h hi fun _ => rfl
  | @pop i t ts hi ht =>
    intro u
    have hc := countP_set_add (WorkerPc.holdsTask u) hi (.decrement t)
    have hu := h u
    rw [ht, List.count_cons] at hu
    simp only [WorkerPc.holdsTask] at hc
    show ts.count u + (s.pool.set i _).countP _ + _ = _
    simp only [setWorker_ran, setWorker_commits]
    by_cases e : (t == u) = true <;> simp [e] at hc hu ⊢ <;> omega
  | decrement hi =>
    exact Conserved.setWorker (s := { s with threadNum := s.threadNum - 1 }) h hi fun _ => rfl
  | @run i t hi =>
    intro u
    have hc := countP_set_add (WorkerPc.holdsTask u) hi .increment
    have hu := h u
    simp only [WorkerPc.holdsTask] at hc
    show s.tasks.count u + (s.pool.set i _).countP _ + (s.ran ++ [(t, i)]).countP _ = _
    simp only [setWorker_commits, List.countP_append, List.countP_singleton]
    by_cases e : (t == u) = true <;> simp [e] at hc ⊢ <;> omega
  | increment hi =>
    exact Conserved.setWorker (s := { s with threadNum := s.threadNum + 1 }) h hi fun _ => rfl
  | spurious hi => exact h.setWorker hi fun _ => rfl
  | call =>
    intro u
    have hu := h u
    show _ = if (s.commits ++ [.check])[u]?.any CommitPc.pushed then 1 else 0
    rw [getElem?_snoc]
    by_cases e : u = s.commits.length
    · rw [List.getElem?_eq_none e.ge] at hu
      rw [if_pos e]
      exact hu
    · rw [if_neg e]
      exact hu
  | refuse ht => exact h.setCommit ht rfl
  | checked ht => exact h.setCommit ht rfl
  | commitLock ht => exact Conserved.setCommit (s := s.setMutex _) h ht rfl
  | @push t w ht =>
    have hlt : t < s.commits.length := (List.getElem?_eq_some_iff.mp ht).1
    intro u
    have hu := h u
    simp only [setCommit_pool, setCommit_tasks, setCommit_ran, setCommit_commits,
      List.count_append, List.count_singleton]
    by_cases e : u = t
    · subst e
      rw [ht] at hu
      simp only [Option.any_some, CommitPc.pushed, Bool.false_eq_true, if_false] at hu
      simp only [List.getElem?_set_self hlt, Option.any_some, CommitPc.pushed, if_true,
        beq_self_eq_true]
      omega
    · rw [List.getElem?_set_ne (Ne.symm e), ← hu]
      simp [Ne.symm e]
  | notify ht hi =>
    exact Conserved.setCommit (h.setWorker (x := .woken) hi fun _ => rfl) ht rfl
  | notifyNone ht => exact h.setCommit ht rfl
  | spawn => intro u; simpa [WorkerPc.holdsTask] using h u
  | started => exact h
  | store => exact h
  | notifyAll =>
    intro u
    have hw : (WorkerPc.holdsTask u ∘ wake) = WorkerPc.holdsTask u := by
      funext pc; cases pc <;> rfl
    show _ + (s.pool.map wake).countP _ + _ = _
    rw [List.countP_map, hw]
    exact h u
  | join => exact h
  | joined => exact h

/-! ## Joining -/

/-- The workers already joined have left their loop. -/
def JoinedExited (s : ThreadPool) : Prop :=
  (∀ n, s.owner = .join n → ∀ i < n, s.pool[i]? = some .exited) ∧
  (s.owner = .joined → ∀ pc ∈ s.pool, pc = .exited)

theorem JoinedExited.setWorker {i : ℕ} {pc x : WorkerPc} (h : s.JoinedExited)
    (hi : s.pool[i]? = some pc) (hpc : pc ≠ .exited) (ho : s'.owner = s.owner)
    (hp : s'.pool = s.pool.set i x) : s'.JoinedExited := by
  refine ⟨fun n hn j hj => ?_, fun hj => ?_⟩
  · rw [ho] at hn
    have hj' := h.1 n hn j hj
    have hne : i ≠ j := by
      rintro rfl
      rw [hi] at hj'
      exact hpc (Option.some.inj hj')
    rw [hp, List.getElem?_set_ne hne, hj']
  · rw [ho] at hj
    exact absurd (h.2 hj pc (List.mem_of_getElem? hi)) hpc

theorem joinedExited_step (h : s.JoinedExited) (hs : Step s a s') : s'.JoinedExited := by
  cases hs with
  | leave hi => exact h.setWorker hi (by simp) rfl rfl
  | enter hi => exact h.setWorker hi (by simp) rfl rfl
  | lock hi hpc => exact h.setWorker hi (by rcases hpc with rfl | rfl <;> simp) rfl rfl
  | proceed hi => exact h.setWorker hi (by simp) rfl rfl
  | block hi => exact h.setWorker hi (by simp) rfl rfl
  | sleep hi => exact h.setWorker hi (by simp) rfl rfl
  | quit hi => exact h.setWorker hi (by simp) rfl rfl
  | pop hi => exact h.setWorker hi (by simp) rfl rfl
  | decrement hi => exact h.setWorker hi (by simp) rfl rfl
  | run hi => exact h.setWorker hi (by simp) rfl rfl
  | increment hi => exact h.setWorker hi (by simp) rfl rfl
  | spurious hi => exact h.setWorker hi (by simp) rfl rfl
  | notify ht hi => exact h.setWorker hi (by simp) rfl rfl
  | call => exact h
  | refuse => exact h
  | checked => exact h
  | commitLock => exact h
  | push => exact h
  | notifyNone => exact h
  | spawn => exact ⟨by simp, by simp⟩
  | started => exact ⟨by simp, by simp⟩
  | store => exact ⟨by simp, by simp⟩
  | notifyAll =>
    refine ⟨fun n hn i hi => ?_, by simp⟩
    obtain rfl : 0 = n := by simpa using hn
    omega
  | @join k ho hk =>
    refine ⟨fun n hn i hi => ?_, by simp⟩
    obtain rfl : k + 1 = n := by simpa using hn
    rcases Nat.lt_succ_iff_lt_or_eq.mp hi with hi | rfl
    · exact h.1 k ho i hi
    · exact hk
  | @joined k ho hk =>
    refine ⟨by simp, fun _ pc hpc => ?_⟩
    obtain ⟨i, hi⟩ := List.mem_iff_getElem?.mp hpc
    have hik : i < k := Nat.lt_of_lt_of_le (List.getElem?_eq_some_iff.mp hi).1
      (List.getElem?_eq_none_iff.mp hk)
    rw [h.1 k ho i hik] at hi
    exact (Option.some.inj hi).symm

/-! ## Reachable states -/

/-- The invariants together. -/
structure Inv (s : ThreadPool) : Prop where
  exclusive : s.Exclusive
  stop_eq : s.stop = s.owner.stopping
  conserved : s.Conserved
  joined : s.JoinedExited

theorem inv_initial (num : ℕ) : (initial num).Inv where
  exclusive h := by cases h <;> simp [initial, InSection]
  stop_eq := rfl
  conserved t := by simp [initial]
  joined := ⟨by simp [initial], by simp [initial]⟩

theorem inv_step (h : s.Inv) (hs : Step s a s') : s'.Inv where
  exclusive := exclusive_step h.exclusive hs
  stop_eq := stop_eq_step h.stop_eq hs
  conserved := conserved_step h.conserved hs
  joined := joinedExited_step h.joined hs

end ThreadPool

theorem inv_of_reachable {num : ℕ} {C : ThreadPool → Action → Prop} {s : ThreadPool}
    (h : (threadPool num).ReachableIf C s) : s.Inv := by
  refine h.invariant (fun s h => ?_) fun s a s' _ h _ hs => ?_
  · obtain rfl : s = .initial num := h
    exact ThreadPool.inv_initial num
  · exact ThreadPool.inv_step h (ThreadPool.step_cases hs)

end SelfStudy.Pool
