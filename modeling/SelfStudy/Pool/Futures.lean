import SelfStudy.Pool.IdleCount
import SelfStudy.Pool.Shutdown

/-!
# The futures of the thread pool

The life of a pool from its constructor to the end of its destructor, as the holders of the futures
see it. `~ThreadPool` is `stop()`, already a part of the pool, and then the destruction of the
members: with `tasks_` go the packaged tasks that are still in it, and the futures of these break
their promise. The destructor runs when no call of `commit` does.

The second part is about the order in which the workers take the tasks.
-/

namespace SelfStudy.Pool

open Lib

variable {ε ρ : Type}

/-- What `get` throws. -/
inductive GetError (ε : Type)
  | thrown (e : ε)
  | brokenPromise
  deriving DecidableEq, Repr

/-- The pool with its futures; `destroyed` says that the destructor has run. -/
structure PoolLifetime (ε ρ : Type) where
  futures : FuturesPool ε ρ
  destroyed : Bool

inductive LifetimeAction (ε ρ : Type)
  | run (a : FuturesAction ε ρ)
  | destroy

/-- The call has returned. -/
def CommitPc.returned : CommitPc → Bool
  | .accepted | .refused => true
  | _ => false

namespace PoolLifetime

/-- One step. -/
def step (s : PoolLifetime ε ρ) : LifetimeAction ε ρ → Option (PoolLifetime ε ρ)
  | .run a =>
    if s.destroyed then none else (s.futures.step a).map fun f => { s with futures := f }
  | .destroy =>
    if s.destroyed = false ∧ s.futures.pool.owner = .joined ∧
        s.futures.pool.commits.all CommitPc.returned = true then
      some { s with destroyed := true }
    else none

/-- What `get` of the future of call `t` returns or throws; it blocks where there is nothing yet. -/
def get (s : PoolLifetime ε ρ) (t : ℕ) : Option (Except (GetError ε) ρ) :=
  match s.futures.results t with
  | some outcome => some (outcome.mapError .thrown)
  | none =>
    if s.destroyed = true ∧ t ∈ s.futures.pool.tasks then some (.error .brokenPromise) else none

end PoolLifetime

/-- The pool whose constructor was called with `num`, from there to the end of its destructor. -/
def poolLifetime (ε ρ : Type) (num : ℕ) : Machine (PoolLifetime ε ρ) (LifetimeAction ε ρ) where
  init s := s = ⟨⟨.initial num, fun _ => none⟩, false⟩
  step := PoolLifetime.step

/-! ## Results and executions -/

namespace FuturesPool

variable {s s' : FuturesPool ε ρ} {a : FuturesAction ε ρ} {t : ℕ}

/-- A step sets no result and adds no execution, or executes a task and sets its result. -/
theorem results_of_step (hs : s.step a = some s') :
    s'.results = s.results ∧ s'.pool.ran = s.pool.ran ∨
      ∃ (i t : ℕ) (outcome : Except ε ρ), s.pool.pool[i]? = some (WorkerPc.run t) ∧
        s'.results = Function.update s.results t (some outcome) ∧
        s'.pool.ran = s.pool.ran ++ [(t, i)] := by
  cases a with
  | pool a =>
    simp only [step, Option.ite_none_left_eq_some, Option.map_eq_some_iff] at hs
    obtain ⟨hruns, p, hp, rfl⟩ := hs
    refine .inl ⟨rfl, ?_⟩
    cases ThreadPool.step_cases hp with
    | run hi => simp [runsTask, hi] at hruns
    | _ => rfl
  | task i outcome =>
    simp only [step] at hs
    split at hs
    case h_2 => cases hs
    rename_i t hi
    obtain ⟨p, hp, rfl⟩ := Option.map_eq_some_iff.mp hs
    have hrun : s.pool.step (.worker i) =
        some ({ s.pool with ran := s.pool.ran ++ [(t, i)] }.setWorker i .increment) := by
      show s.pool.pool[i]?.bind _ = _
      rw [hi]
      rfl
    obtain rfl := Option.some.inj (hrun.symm.trans hp)
    exact .inr ⟨i, t, outcome, hi, rfl, rfl⟩

/-- The pool's invariants, and a result for exactly the tasks that have been executed. -/
structure Recorded (s : FuturesPool ε ρ) : Prop where
  pool : s.pool.Inv
  isSome : ∀ t, (s.results t).isSome = true ↔ ∃ i, (t, i) ∈ s.pool.ran

/-- A worker about to execute a task is the first to do so. -/
theorem Recorded.fresh (h : s.Recorded) {i : ℕ} (hi : s.pool.pool[i]? = some (.run t)) :
    s.results t = none := by
  by_contra hne
  obtain ⟨j, hj⟩ := (h.isSome t).mp (Option.isSome_iff_ne_none.mpr hne)
  have hran : 0 < s.pool.ran.countP (fun r => r.1 == t) :=
    List.countP_pos_iff.mpr ⟨_, hj, beq_self_eq_true t⟩
  have hheld : 0 < s.pool.pool.countP (WorkerPc.holdsTask t) :=
    List.countP_pos_iff.mpr ⟨_, List.mem_of_getElem? hi, beq_self_eq_true t⟩
  have hone := h.pool.conserved t
  split_ifs at hone <;> omega

theorem recorded_step (h : s.Recorded) (hs : s.step a = some s') : s'.Recorded where
  pool := ThreadPool.inv_step h.pool (ThreadPool.step_cases (step_pool hs))
  isSome t := by
    rcases results_of_step hs with ⟨hres, hran⟩ | ⟨i, u, outcome, -, hres, hran⟩
    · rw [hres, hran]
      exact h.isSome t
    · rw [hres, hran]
      by_cases e : t = u
      · subst e
        rw [Function.update_self]
        exact iff_of_true rfl ⟨i, List.mem_append_right _ (List.mem_singleton_self _)⟩
      · rw [Function.update_of_ne e, h.isSome t]
        simp [e]

theorem results_step (h : s.Recorded) (hs : s.step a = some s') {outcome : Except ε ρ}
    (ht : s.results t = some outcome) : s'.results t = some outcome := by
  rcases results_of_step hs with ⟨hres, -⟩ | ⟨i, u, o, hi, hres, -⟩
  · rw [hres, ht]
  · have hne : t ≠ u := by
      rintro rfl
      rw [h.fresh hi] at ht
      cases ht
    rw [hres, Function.update_of_ne hne, ht]

end FuturesPool

/-! ## What `get` finds -/

namespace PoolLifetime

variable {num : ℕ} {s s' : PoolLifetime ε ρ} {a : LifetimeAction ε ρ} {t : ℕ}

/-- The results are those of the executions, and the destructor has found the threads joined and the
calls of `commit` returned. -/
structure Settled (s : PoolLifetime ε ρ) : Prop where
  recorded : s.futures.Recorded
  destroyed : s.destroyed = true → s.futures.pool.owner = .joined ∧
    s.futures.pool.commits.all CommitPc.returned = true

theorem settled_step (h : s.Settled) (hs : s.step a = some s') : s'.Settled := by
  cases a with
  | run a =>
    simp only [step, Option.ite_none_left_eq_some, Option.map_eq_some_iff] at hs
    obtain ⟨hd, f, hf, rfl⟩ := hs
    exact ⟨FuturesPool.recorded_step h.recorded hf, fun h => absurd h hd⟩
  | destroy =>
    simp only [step, Option.ite_none_right_eq_some, Option.some.injEq] at hs
    obtain ⟨⟨-, ho, hc⟩, rfl⟩ := hs
    exact ⟨h.recorded, fun _ => ⟨ho, hc⟩⟩

theorem settled_of_reachable (h : (poolLifetime ε ρ num).Reachable s) : s.Settled := by
  refine h.invariant (P := Settled) (fun s hs => ?_) fun s a s' _ h _ hs => settled_step h hs
  obtain rfl : s = ⟨⟨.initial num, fun _ => none⟩, false⟩ := hs
  exact ⟨⟨ThreadPool.inv_initial num, by simp [ThreadPool.initial]⟩, by simp⟩

/-- Before the destructor only an execution makes a future ready. -/
theorem get_eq_of_alive (hd : s.destroyed = false) (t : ℕ) :
    s.get t = (s.futures.results t).map (·.mapError .thrown) := by
  unfold get
  rw [hd]
  cases s.futures.results t <;> simp

/-- A future that is ready stays as it is. -/
theorem get_step (h : s.Settled) (hs : s.step a = some s') {r : Except (GetError ε) ρ}
    (ht : s.get t = some r) : s'.get t = some r := by
  cases a with
  | run a =>
    simp only [step, Option.ite_none_left_eq_some, Option.map_eq_some_iff] at hs
    obtain ⟨hd, f, hf, rfl⟩ := hs
    rw [Bool.not_eq_true] at hd
    rw [get_eq_of_alive hd] at ht
    rw [get_eq_of_alive (s := { s with futures := f }) hd]
    obtain ⟨outcome, ho, rfl⟩ := Option.map_eq_some_iff.mp ht
    exact Option.map_eq_some_iff.mpr ⟨outcome, FuturesPool.results_step h.recorded hf ho, rfl⟩
  | destroy =>
    simp only [step, Option.ite_none_right_eq_some, Option.some.injEq] at hs
    obtain ⟨⟨hd, -, -⟩, rfl⟩ := hs
    rw [get_eq_of_alive hd] at ht
    obtain ⟨outcome, ho, rfl⟩ := Option.map_eq_some_iff.mp ht
    show (match s.futures.results t with | some outcome => _ | none => _) = _
    rw [ho]

theorem get_run (hr : (poolLifetime ε ρ num).Reachable s) {as : List (LifetimeAction ε ρ)}
    (hs : (poolLifetime ε ρ num).run s as = some s') {r : Except (GetError ε) ρ}
    (ht : s.get t = some r) : s'.get t = some r := by
  induction as generalizing s with
  | nil => exact Option.some.inj hs ▸ ht
  | cons a as ih =>
    obtain ⟨s₁, h₁, hs⟩ := Option.bind_eq_some_iff.mp hs
    exact ih (hr.step trivial h₁) hs (get_step (settled_of_reachable hr) h₁ ht)

/-- After the destructor a task that was accepted has been executed, or was still in the queue. -/
theorem Settled.get_destroyed (h : s.Settled) (hd : s.destroyed = true)
    (ht : s.futures.pool.commits[t]? = some .accepted) :
    ∃ r, s.get t = some r ∧ (r = .error .brokenPromise ↔ ∀ i, (t, i) ∉ s.futures.pool.ran) := by
  have hone := ThreadPool.ran_of_joined h.recorded.pool (h.destroyed hd).1 ht
  unfold get
  cases hres : s.futures.results t with
  | some outcome =>
    refine ⟨_, rfl, iff_of_false ?_ ?_⟩
    · cases outcome <;> simp [Except.mapError]
    · obtain ⟨i, hi⟩ := (h.recorded.isSome t).mp (by rw [hres]; rfl)
      exact fun hnot => hnot i hi
  | none =>
    have hnot : ∀ i, (t, i) ∉ s.futures.pool.ran := fun i hi => by
      have hsome := (h.recorded.isSome t).mpr ⟨i, hi⟩
      rw [hres] at hsome
      cases hsome
    have hran : s.futures.pool.ran.countP (fun r => r.1 == t) = 0 := by
      refine List.countP_eq_zero.mpr fun r hr he => hnot r.2 ?_
      rw [← beq_iff_eq.mp he]
      exact hr
    have hmem : t ∈ s.futures.pool.tasks := List.count_pos_iff.mp (by omega)
    exact ⟨_, if_pos ⟨hd, hmem⟩, iff_of_true rfl hnot⟩

end PoolLifetime

/-- **The futures are settled.** What `get` finds never changes. Until the destructor it finds the
outcome of an execution, and nothing as long as there has been none. After the destructor it finds
something for every call that was accepted, and a broken promise exactly where the task has never
been executed. -/
theorem futures_settled (ε ρ : Type) (num : ℕ) :
    ∀ s, (poolLifetime ε ρ num).Reachable s →
      (∀ as s' t r, (poolLifetime ε ρ num).run s as = some s' → s.get t = some r →
        s'.get t = some r) ∧
      (s.destroyed = false → ∀ t, (s.get t).isSome = true ↔ ∃ i, (t, i) ∈ s.futures.pool.ran) ∧
      (s.destroyed = true → ∀ t : ℕ, s.futures.pool.commits[t]? = some .accepted →
        ∃ r, s.get t = some r ∧
          (r = .error .brokenPromise ↔ ∀ i, (t, i) ∉ s.futures.pool.ran)) := by
  intro s hr
  have h := PoolLifetime.settled_of_reachable hr
  refine ⟨fun as s' t r hs ht => PoolLifetime.get_run hr hs ht, fun hd t => ?_,
    fun hd t ht => h.get_destroyed hd ht⟩
  rw [PoolLifetime.get_eq_of_alive hd, Option.isSome_map]
  exact h.recorded.isSome t

/-- The first task throws, and the second is still in the queue when the pool is stopped. -/
theorem futures_settled_thrown : ∃ s : PoolLifetime ℕ ℕ, s.get 0 = some (.error (.thrown 7)) ∧
    s.get 1 = some (.error .brokenPromise) ∧ ∀ i, (1, i) ∉ s.futures.pool.ran := by
  obtain ⟨s, hs, hd, ht, h0, h1⟩ : ∃ s, (poolLifetime ℕ ℕ 2).run ⟨⟨.initial 2, fun _ => none⟩, false⟩
      [.run (.pool .owner), .run (.pool .owner), .run (.pool .owner), .run (.pool .call),
        .run (.pool .call), .run (.pool (.commit 0 none)), .run (.pool (.commit 0 none)),
        .run (.pool (.commit 0 none)), .run (.pool (.commit 0 none)), .run (.pool (.worker 0)),
        .run (.pool (.worker 0)), .run (.pool (.worker 0)), .run (.pool (.worker 0)),
        .run (.pool (.worker 0)), .run (.task 0 (.error 7)), .run (.pool (.worker 0)),
        .run (.pool (.commit 1 none)), .run (.pool (.commit 1 none)), .run (.pool (.commit 1 none)),
        .run (.pool (.commit 1 none)), .run (.pool .owner), .run (.pool (.worker 0)),
        .run (.pool (.worker 1)), .run (.pool .owner), .run (.pool .owner), .run (.pool .owner),
        .run (.pool .owner), .destroy] = some s ∧
      s.destroyed = true ∧ s.futures.pool.commits[1]? = some .accepted ∧
      s.get 0 = some (.error (.thrown 7)) ∧ s.get 1 = some (.error .brokenPromise) :=
    ⟨_, rfl, rfl, rfl, rfl, rfl⟩
  obtain ⟨-, -, hdestroyed⟩ := futures_settled ℕ ℕ 2 s (Machine.Reachable.run (.init rfl) hs)
  obtain ⟨r, hr, hiff⟩ := hdestroyed hd 1 ht
  exact ⟨s, h0, h1, hiff.mp (Option.some.inj (hr.symm.trans h1))⟩

/-! ## The order of the queue -/

/-- A task goes into `tasks_` or comes out of it. -/
inductive QueueEvent
  | pushed (t : ℕ)
  | taken (t : ℕ)
  deriving DecidableEq, Repr

def QueueEvent.pushed? : QueueEvent → Option ℕ
  | .pushed t => some t
  | .taken _ => none

def QueueEvent.taken? : QueueEvent → Option ℕ
  | .pushed _ => none
  | .taken t => some t

namespace ThreadPool

variable {num : ℕ} {s s' : ThreadPool} {a : Action}

/-- What the step does to `tasks_`. -/
def queueEvent (s : ThreadPool) : Action → Option QueueEvent
  | .commit t _ => if s.commits[t]? = some .push then some (.pushed t) else none
  | .worker i => if s.pool[i]? = some .take then (s.tasks.head?).map .taken else none
  | _ => none

/-- The queue holds what has been pushed and not taken, in order; who has pushed has called. -/
structure Logged (s : ThreadPool) (log : List QueueEvent) : Prop where
  fifo : log.filterMap QueueEvent.pushed? = log.filterMap QueueEvent.taken? ++ s.tasks
  mem : ∀ t, t ∈ log.filterMap QueueEvent.pushed? ↔ (s.commits[t]?).any CommitPc.pushed = true

/-- What is recorded of a step is what it does to the queue. -/
theorem queueEvent_of_step (hs : Step s a s') :
    (s.queueEvent a = none ∧ s'.tasks = s.tasks ∧
        ∀ t : ℕ, (s'.commits[t]?).any CommitPc.pushed = (s.commits[t]?).any CommitPc.pushed) ∨
      (∃ t : ℕ, s.queueEvent a = some (.pushed t) ∧ s'.tasks = s.tasks ++ [t] ∧
        s.commits[t]? = some .push ∧ s'.commits = s.commits.set t .notify) ∨
      ∃ t, s.queueEvent a = some (.taken t) ∧ s.tasks = t :: s'.tasks ∧ s'.commits = s.commits := by
  have hworker : ∀ {i : ℕ} {pc : WorkerPc}, s.pool[i]? = some pc → pc ≠ .take →
      s.queueEvent (.worker i) = none := by
    intro i pc hi hpc
    refine if_neg fun h => hpc ?_
    exact Option.some.inj (hi.symm.trans h)
  have hcommit : ∀ {u : ℕ} {w : Option ℕ} {y x : CommitPc}, s.commits[u]? = some y → y ≠ .push →
      x.pushed = y.pushed → s.queueEvent (.commit u w) = none ∧ s.tasks = s.tasks ∧ ∀ t : ℕ,
        ((s.commits.set u x)[t]?).any CommitPc.pushed = (s.commits[t]?).any CommitPc.pushed := by
    intro u w y x hu hy hx
    refine ⟨if_neg fun h => hy (Option.some.inj (hu.symm.trans h)), rfl, fun t => ?_⟩
    by_cases e : u = t
    · subst e
      rw [List.getElem?_set_self (List.getElem?_eq_some_iff.mp hu).1, hu, Option.any_some,
        Option.any_some, hx]
    · rw [List.getElem?_set_ne e]
  cases hs with
  | leave hi => exact .inl ⟨hworker hi (by simp), rfl, fun _ => rfl⟩
  | enter hi => exact .inl ⟨hworker hi (by simp), rfl, fun _ => rfl⟩
  | lock hi hp => exact .inl ⟨hworker hi (by rcases hp with rfl | rfl <;> simp), rfl, fun _ => rfl⟩
  | proceed hi => exact .inl ⟨hworker hi (by simp), rfl, fun _ => rfl⟩
  | block hi => exact .inl ⟨hworker hi (by simp), rfl, fun _ => rfl⟩
  | sleep hi => exact .inl ⟨hworker hi (by simp), rfl, fun _ => rfl⟩
  | quit hi ht =>
    refine .inl ⟨?_, rfl, fun _ => rfl⟩
    rw [queueEvent, if_pos hi, ht]
    rfl
  | @pop i t ts hi ht =>
    refine .inr (.inr ⟨t, ?_, ht, rfl⟩)
    rw [queueEvent, if_pos hi, ht]
    rfl
  | decrement hi => exact .inl ⟨hworker hi (by simp), rfl, fun _ => rfl⟩
  | run hi => exact .inl ⟨hworker hi (by simp), rfl, fun _ => rfl⟩
  | increment hi => exact .inl ⟨hworker hi (by simp), rfl, fun _ => rfl⟩
  | call =>
    refine .inl ⟨rfl, rfl, fun t => ?_⟩
    show ((s.commits ++ [CommitPc.check])[t]?).any _ = _
    rw [getElem?_snoc]
    split_ifs with e
    · rw [List.getElem?_eq_none e.ge]
      rfl
    · rfl
  | refuse hu => exact .inl (hcommit hu (by decide) rfl)
  | checked hu => exact .inl (hcommit hu (by decide) rfl)
  | commitLock hu => exact .inl (hcommit hu (by decide) rfl)
  | push hu => exact .inr (.inl ⟨_, if_pos hu, rfl, hu, rfl⟩)
  | notify hu => exact .inl (hcommit hu (by decide) rfl)
  | notifyNone hu => exact .inl (hcommit hu (by decide) rfl)
  | _ => exact .inl ⟨rfl, rfl, fun _ => rfl⟩

theorem logged_step {log : List QueueEvent} (h : s.Logged log)
    (hs : (threadPool num).step s a = some s') : s'.Logged (log ++ (s.queueEvent a).toList) := by
  rcases queueEvent_of_step (step_cases hs) with
    ⟨he, ht, hc⟩ | ⟨t, he, ht, hc, hc'⟩ | ⟨t, he, ht, hc⟩
  · rw [he, Option.toList_none, List.append_nil]
    exact ⟨h.fifo.trans (by rw [ht]), fun t => (h.mem t).trans (by rw [hc])⟩
  · rw [he]
    have hlt : t < s.commits.length := (List.getElem?_eq_some_iff.mp hc).1
    constructor
    · simp [List.filterMap_append, QueueEvent.pushed?, QueueEvent.taken?, h.fifo, ht]
    · intro u
      rw [List.filterMap_append, List.mem_append, h.mem u, hc']
      by_cases e : t = u
      · subst e
        simp [QueueEvent.pushed?, List.getElem?_set_self hlt, CommitPc.pushed]
      · rw [List.getElem?_set_ne e]
        simp [QueueEvent.pushed?, Ne.symm e]
  · rw [he]
    constructor
    · simp [List.filterMap_append, QueueEvent.pushed?, QueueEvent.taken?, h.fifo, ht]
    · intro u
      simp only [List.filterMap_append, List.mem_append, h.mem u, hc]
      simp [QueueEvent.pushed?]

theorem logged_of_run {as : List Action} (hs : (threadPool num).run (.initial num) as = some s) :
    s.Logged ((threadPool num).record queueEvent (.initial num) as) := by
  have h := Machine.record_run (P := Logged) (l := [])
    (fun s a s' log h hs => logged_step h hs) ⟨rfl, by simp [initial]⟩ hs
  rwa [List.nil_append] at h

end ThreadPool

/-- In a prefix of `xs ++ ys` that reaches beyond `xs`, the elements of `xs` come first. -/
theorem exists_split_of_prefix {α : Type*} {l xs ys : List α} {x y : α} (hp : l <+: xs ++ ys)
    (hx : x ∈ xs) (hy : y ∈ l) (hnot : y ∉ xs) : ∃ l₁ l₂, l = l₁ ++ y :: l₂ ∧ x ∈ l₁ := by
  have hxs : xs <+: l := by
    refine (List.prefix_or_prefix_of_prefix hp (List.prefix_append xs ys)).resolve_left fun h => ?_
    exact hnot (h.subset hy)
  obtain ⟨zs, rfl⟩ := hxs
  obtain ⟨l₁, l₂, rfl⟩ := List.append_of_mem ((List.mem_append.mp hy).resolve_left hnot)
  exact ⟨xs ++ l₁, l₂, (List.append_assoc ..).symm, List.mem_append_left _ hx⟩

/-- **First come, first served.** If the call of `commit` for one task has pushed it before the call
for another one starts, the workers take the first one first. -/
theorem taken_in_order_of_calls (num : ℕ) :
    ∀ as s bs s', (threadPool num).run (.initial num) as = some s →
      (threadPool num).run s bs = some s' →
      ∀ j k : ℕ, (s.commits[j]?).any CommitPc.pushed = true → s.commits.length ≤ k →
        k ∈ ((threadPool num).record ThreadPool.queueEvent (.initial num) (as ++ bs)).filterMap
          QueueEvent.taken? →
        ∃ l₁ l₂, ((threadPool num).record ThreadPool.queueEvent (.initial num) (as ++ bs)).filterMap
          QueueEvent.taken? = l₁ ++ k :: l₂ ∧ j ∈ l₁ := by
  intro as s bs s' hs hs' j k hj hk hmem
  have hrun : (threadPool num).run (.initial num) (as ++ bs) = some s' := by
    rw [Machine.run_append, hs]
    exact hs'
  have hlog := ThreadPool.logged_of_run hs
  have hlog' := ThreadPool.logged_of_run hrun
  have hprefix : ((threadPool num).record ThreadPool.queueEvent (.initial num)
        (as ++ bs)).filterMap QueueEvent.taken? <+:
      ((threadPool num).record ThreadPool.queueEvent (.initial num) as).filterMap
          QueueEvent.pushed? ++
        ((threadPool num).record ThreadPool.queueEvent s bs).filterMap QueueEvent.pushed? := by
    rw [← List.filterMap_append, ← Machine.record_append _ hs, hlog'.fifo]
    exact List.prefix_append ..
  refine exists_split_of_prefix hprefix ((hlog.mem j).mpr hj) hmem ?_
  rw [hlog.mem k, List.getElem?_eq_none hk]
  simp

/-- The second call starts before the first one has notified anybody. -/
theorem taken_in_order_of_calls_two : ∃ l₁ l₂,
    ((threadPool 2).record ThreadPool.queueEvent (.initial 2)
      ([.owner, .owner, .owner, .call, .commit 0 none, .commit 0 none, .commit 0 none] ++
        [.call, .commit 1 none, .commit 1 none, .commit 1 none, .worker 1, .worker 1, .worker 1,
          .worker 1, .worker 0, .worker 0, .worker 0, .worker 0])).filterMap QueueEvent.taken? =
      l₁ ++ 1 :: l₂ ∧ 0 ∈ l₁ :=
  taken_in_order_of_calls 2 _ _ _ _ rfl rfl 0 1 rfl (by decide) (by decide)

end SelfStudy.Pool
