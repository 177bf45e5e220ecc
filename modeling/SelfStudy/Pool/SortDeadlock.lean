import SelfStudy.Pool.QuickSort
import Mathlib.Algebra.Order.BigOperators.Group.List
import Mathlib.Algebra.Order.Ring.Nat

/-!
# Deadlocks of the sort

A call of `pool_thread_quick_sort` blocks its thread in `new_lower.get()`, in a worker as well as in
the caller, and a blocked worker serves no task. A task with an empty chunk returns at once. The
others are counted by `lowerCount`, and each of them can occupy a worker: `sort_deadlock_free_iff`
says that the sort cannot deadlock exactly if there are fewer of them than workers.

One direction is a count that no step increases. For the other the schedule gathers: workers take
tasks from the queue, and each keeps one with a nonempty chunk and stops short of its last commit,
until every worker has one. From then on nobody serves the tasks still to be committed.
-/

namespace SelfStudy.Pool

open Lib

universe u

variable {α : Type u} {S : Sorting α}

/-- The task that the thread is about to get the result of. -/
def Call.awaits : Call α → Option ℕ
  | .ascend _ (f :: _) => some f.lower
  | _ => none

def Worker.awaits : Worker α → Option ℕ
  | .idle => none
  | .working _ c => c.awaits

namespace Sorter

variable {s s' t : Sorter α} {c c' : Call α} {a : SortAction}

/-- Task `n` is in `tasks_`, or the worker that runs it waits for an unserved one. -/
inductive Unserved (s : Sorter α) : ℕ → Prop
  | queued {n l} (h : (n, l) ∈ s.tasks) : Unserved s n
  | waiting {n m c} (hw : .working n c ∈ s.pool) (hc : c.awaits = some m) (h : Unserved s m) :
    Unserved s n

/-- Every worker is blocked in `new_lower.get()` on an unserved task. -/
def Deadlock (s : Sorter α) : Prop :=
  s.pool ≠ [] ∧
    ∀ w ∈ s.pool, ∃ n, w.awaits = some n ∧ s.unfinished n = true ∧ s.Unserved n

end Sorter

/-! ## Counting nonempty chunks -/

/-- The nonempty chunks that the thread is still going to commit, and those below them. -/
def Call.ahead (S : Sorting α) : Call α → ℕ
  | .descend input _ => S.lowerCount input
  | .ascend _ _ => 0

/-- Whether the thread has something left to sort or to wait for. -/
def Call.nested : Call α → ℕ
  | .descend [] [] => 0
  | .ascend _ [] => 0
  | _ => 1

def Worker.nests (S : Sorting α) : Worker α → ℕ
  | .idle => 0
  | .working _ c => c.ahead S + c.nested

theorem Call.nested_le (c : Call α) : c.nested ≤ 1 := by
  unfold Call.nested
  split <;> simp

theorem Worker.nests_of_awaits {w : Worker α} {n : ℕ} (h : w.awaits = some n) : 1 ≤ w.nests S := by
  match w, h with
  | .working m (.ascend r (f :: fs)), _ => exact Nat.le_add_left _ _

theorem Worker.nests_take (n : ℕ) (l : List α) :
    (Worker.working n (.descend l [])).nests S = S.chunkCount l := by
  cases l with
  | nil => simp [Worker.nests, Call.ahead, Call.nested]
  | cons p xs =>
    rw [S.chunkCount_of_ne_nil (List.cons_ne_nil _ _), Nat.add_comm]
    rfl

namespace Sorter

variable {s s' t : Sorter α} {c c' : Call α} {a : SortAction} {q : List α → Prop}

def tasksCount (S : Sorting α) (s : Sorter α) : ℕ := (s.tasks.map fun e => S.chunkCount e.2).sum

/-- The tasks with a nonempty chunk that have not returned, those not committed yet included. -/
def nests (S : Sorting α) (s : Sorter α) : ℕ :=
  s.caller.ahead S + (s.pool.map (Worker.nests S)).sum + s.tasksCount S

theorem Advance.ahead_eq (ha : Advance S s c t c') :
    t.tasksCount S + c'.ahead S = s.tasksCount S + c.ahead S := by
  cases ha with
  | bottom => simp [Call.ahead]
  | @commit p xs fs =>
    unfold tasksCount
    simp only [commit_tasks, List.map_append, List.map_singleton, List.sum_append,
      List.sum_singleton, Call.ahead, S.lowerCount_cons]
    omega
  | join => rfl

theorem Advance.nested_le (ha : Advance S s c t c') : c'.nested ≤ c.nested := by
  cases ha with
  | @bottom fs => cases fs <;> simp [Call.nested]
  | commit => exact Call.nested_le _
  | join => exact Call.nested_le _

theorem nests_caller (ha : Advance S s s.caller t c) : (t.setCaller c).nests S = s.nests S := by
  have := ha.ahead_eq
  show c.ahead S + (t.pool.map _).sum + t.tasksCount S = _
  unfold nests
  rw [ha.pool]
  omega

theorem nests_take {i n : ℕ} {l : List α} {ts : List (ℕ × List α)} (hi : s.pool[i]? = some .idle)
    (ht : s.tasks = (n, l) :: ts) :
    ((s.setTasks ts).setWorker i (.working n (.descend l []))).nests S = s.nests S := by
  have hp := sum_map_set (Worker.nests S) hi (.working n (.descend l []))
  rw [Worker.nests_take] at hp
  have hq : s.tasksCount S = S.chunkCount l + (ts.map fun e => S.chunkCount e.2).sum := by
    unfold tasksCount
    rw [ht, List.map_cons, List.sum_cons]
  simp only [Worker.nests] at hp
  show s.caller.ahead S + ((s.pool.set i _).map _).sum + (ts.map _).sum = _
  unfold nests
  omega

theorem nests_work {i n : ℕ} (hi : s.pool[i]? = some (.working n c)) (ha : Advance S s c t c') :
    (t.setWorker i (.working n c')).nests S + c.nested = s.nests S + c'.nested := by
  have hp := sum_map_set (Worker.nests S) hi (.working n c')
  have := ha.ahead_eq
  simp only [Worker.nests] at hp
  show t.caller.ahead S + ((t.pool.set i _).map _).sum + t.tasksCount S + _ = _
  unfold nests
  rw [ha.pool, ha.caller]
  omega

theorem nests_finish {i n : ℕ} {r : List α} (hi : s.pool[i]? = some (.working n (.ascend r []))) :
    ((s.resolve n r).setWorker i .idle).nests S = s.nests S := by
  have hp := sum_map_set (Worker.nests S) hi .idle
  simp only [Worker.nests, Call.ahead, Call.nested] at hp
  show s.caller.ahead S + ((s.pool.set i _).map _).sum + s.tasksCount S = _
  unfold nests
  omega

theorem nests_step (hs : Step S s a s') : s'.nests S ≤ s.nests S := by
  cases hs with
  | caller ha => exact (nests_caller ha).le
  | take hi ht => exact (nests_take hi ht).le
  | finish hi => exact (nests_finish hi).le
  | work hi ha =>
    have := nests_work hi ha
    have := ha.nested_le
    omega

theorem length_pool_step (hs : Step S s a s') : s'.pool.length = s.pool.length := by
  cases hs with
  | caller ha => simp [ha.pool]
  | take => simp
  | finish => simp
  | work hi ha => simp [ha.pool]

theorem nests_initial (num : ℕ) (input : List α) :
    (initial num input).nests S = S.lowerCount input := by
  simp [nests, initial, Call.ahead, Worker.nests, tasksCount]

/-- Each worker in a deadlock holds a task with a nonempty chunk. -/
theorem length_le_nests (h : s.Deadlock) : s.pool.length ≤ s.nests S := by
  have hsum : (s.pool.map (Worker.nests S)).length ≤ (s.pool.map (Worker.nests S)).sum := by
    refine List.length_le_sum_of_one_le _ fun k hk => ?_
    obtain ⟨w, hw, rfl⟩ := List.mem_map.mp hk
    obtain ⟨n, hn, -⟩ := h.2 w hw
    exact Worker.nests_of_awaits hn
  rw [List.length_map] at hsum
  unfold nests
  omega

/-! ## Holding a task -/

/-- Task `n` has not returned, and its chunk satisfies `q`. -/
def Pending (s : Sorter α) (q : List α → Prop) (n : ℕ) : Prop :=
  s.unfinished n = true ∧ ∃ l, s.chunk n = some l ∧ q l

/-- The thread cannot return before it has committed a task, or before a pending one has returned. -/
def Held (s : Sorter α) (q : List α → Prop) : Call α → Prop
  | .descend input fs => input ≠ [] ∨ ∃ f ∈ fs, s.Pending q f.lower
  | .ascend _ fs => ∃ f ∈ fs, s.Pending q f.lower

/-- The worker holds a task that it cannot finish. -/
def HeldBy (s : Sorter α) (q : List α → Prop) (w : Worker α) : Prop :=
  ∃ n c, w = .working n c ∧ s.Held q c

theorem Held.mono {r : List α → Prop} (h : s.Held q c)
    (hp : ∀ n, s.Pending q n → t.Pending r n) : t.Held r c := by
  cases c with
  | descend input fs => exact h.imp id fun ⟨f, hf, hq⟩ => ⟨f, hf, hp _ hq⟩
  | ascend _ fs =>
    obtain ⟨f, hf, hq⟩ := h
    exact ⟨f, hf, hp _ hq⟩

theorem HeldBy.mono {r : List α → Prop} {w : Worker α} (h : s.HeldBy q w)
    (hp : ∀ n, s.Pending q n → t.Pending r n) : t.HeldBy r w := by
  obtain ⟨n, c, rfl, hc⟩ := h
  exact ⟨n, c, rfl, hc.mono hp⟩

theorem Pending.commit {n : ℕ} (h : s.Pending q n) (l : List α) : (s.commit l).Pending q n := by
  have hne : n ≠ s.committed.length := Nat.ne_of_lt (lt_of_unfinished h.1)
  unfold Pending
  rw [unfinished_commit, chunk_commit, if_neg hne, if_neg hne]
  exact h

theorem pending_commit {l : List α} (h : q l) : (s.commit l).Pending q s.committed.length := by
  unfold Pending
  rw [unfinished_commit, chunk_commit, if_pos rfl, if_pos rfl]
  exact ⟨rfl, l, rfl, h⟩

theorem Advance.pending (ha : Advance S s c t c') {n : ℕ} (h : s.Pending q n) : t.Pending q n := by
  cases ha with
  | bottom => exact h
  | commit => exact h.commit _
  | join => exact h

/-- A pending task stays pending when one returns whose chunk does not satisfy `q`. -/
theorem Pending.resolve {n m : ℕ} {l r : List α} (h : s.Pending q n) (hl : s.chunk m = some l)
    (hq : ¬ q l) : (s.resolve m r).Pending q n := by
  have hne : n ≠ m := by
    rintro rfl
    obtain ⟨-, l', hl', hq'⟩ := h
    rw [hl] at hl'
    exact hq (Option.some.inj hl' ▸ hq')
  unfold Pending
  rw [unfinished_resolve, chunk_resolve, if_neg hne]
  exact h

/-- A commit with more to come, or of a chunk that satisfies `q`, leaves the thread held. -/
theorem held_commit {p : α} {xs : List α} {fs : List (Frame α)}
    (h : S.higher p xs ≠ [] ∨ q (S.lower p xs)) :
    (s.commit (S.lower p xs)).Held q
      (.descend (S.higher p xs) (⟨p, s.committed.length⟩ :: fs)) := by
  rcases h with h | h
  · exact .inl h
  · exact .inr ⟨_, List.mem_cons_self, pending_commit h⟩

/-! ## Gathering -/

/-- The worker runs a task with an empty chunk. -/
def Trivial (s : Sorter α) (w : Worker α) : Prop :=
  ∃ n, s.chunk n = some [] ∧ (w = .working n (.descend [] []) ∨ w = .working n (.ascend [] []))

/-- While the workers gather: each is idle, holds a nonempty task or runs an empty one, and no
nonempty task has returned. -/
structure Gathering (S : Sorting α) (num : ℕ) (input : List α) (s : Sorter α) : Prop where
  inv : s.Inv
  length : s.pool.length = poolSize num
  nests_eq : s.nests S = S.lowerCount input
  workers : ∀ w ∈ s.pool, w = .idle ∨ s.HeldBy (· ≠ []) w ∨ s.Trivial w

theorem gathering_initial (num : ℕ) (input : List α) :
    Gathering S num input (initial num input) where
  inv := inv_initial num input
  length := by simp [initial]
  nests_eq := nests_initial num input
  workers w hw := .inl (List.eq_of_mem_replicate hw)

variable {num : ℕ} {input : List α}

/-- A step of one worker that leaves what is pending and the chunks as they are. -/
theorem Gathering.setWorker (h : s.Gathering S num input) (hs : Step S s a s')
    (hn : s'.nests S = s.nests S) {i : ℕ} {w : Worker α} (hp : s'.pool = s.pool.set i w)
    (hpend : ∀ n, s.Pending (· ≠ []) n → s'.Pending (· ≠ []) n)
    (hchunk : ∀ n l, s.chunk n = some l → s'.chunk n = some l)
    (hw : w = .idle ∨ s'.HeldBy (· ≠ []) w ∨ s'.Trivial w) : s'.Gathering S num input where
  inv := inv_step h.inv hs
  length := (length_pool_step hs).trans h.length
  nests_eq := hn.trans h.nests_eq
  workers := by
    rw [hp]
    refine forall_mem_set (fun w hw => ?_) hw
    rcases h.workers w hw with hw | hw | ⟨n, hn, hw⟩
    · exact .inl hw
    · exact .inr (.inl (hw.mono hpend))
    · exact .inr (.inr ⟨n, hchunk n _ hn, hw⟩)

/-- The higher or the lower chunk of a list of two or more is not empty. -/
theorem higher_or_lower (p x : α) (xs : List α) :
    S.higher p (x :: xs) ≠ [] ∨ S.lower p (x :: xs) ≠ [] := by
  have := S.length_lower_add p (x :: xs)
  by_contra h
  obtain ⟨h₁, h₂⟩ := not_or.mp h
  rw [not_not.mp h₁, not_not.mp h₂] at this
  simp at this

theorem Gathering.caller (h : s.Gathering S num input) {p x : α} {xs : List α}
    {fs : List (Frame α)} (hc : s.caller = .descend (p :: x :: xs) fs) :
    ∃ a s', Step S s a s' ∧ s'.Gathering S num input := by
  have ha : Advance S s s.caller _ _ := hc ▸ Advance.commit
  refine ⟨_, _, .caller ha, inv_step h.inv (.caller ha), h.length, ?_, fun w hw => ?_⟩
  · rw [nests_caller ha, h.nests_eq]
  · rcases h.workers w hw with hw | hw | ⟨n, hn, hw⟩
    · exact .inl hw
    · exact .inr (.inl (hw.mono fun n hn => hn.commit _))
    · exact .inr (.inr ⟨n, chunk_commit_of_some hn _, hw⟩)

theorem Gathering.commit (h : s.Gathering S num input) {i n : ℕ} {p x : α} {xs : List α}
    {fs : List (Frame α)} (hi : s.pool[i]? = some (.working n (.descend (p :: x :: xs) fs))) :
    ∃ a s', Step S s a s' ∧ s'.Gathering S num input := by
  have ha : Advance S s (.descend (p :: x :: xs) fs) _ _ := Advance.commit
  refine ⟨_, _, .work hi ha, h.setWorker (.work hi ha) ?_ rfl (fun n hn => hn.commit _)
    (fun n l hn => chunk_commit_of_some hn _) (.inr (.inl ⟨n, _, rfl, ?_⟩))⟩
  · have := nests_work hi ha
    have h1 : Call.nested (.descend (p :: x :: xs) fs) = 1 := rfl
    have h2 : ∀ l (f : Frame α), Call.nested (.descend l (f :: fs)) = 1 := by
      intro l f
      cases l <;> rfl
    rw [h1, h2] at this
    omega
  · exact held_commit (higher_or_lower p x xs)

theorem Gathering.trivial (h : s.Gathering S num input) {i : ℕ} {w : Worker α}
    (hi : s.pool[i]? = some w) (hw : s.Trivial w) :
    ∃ a s', Step S s a s' ∧ s'.Gathering S num input := by
  obtain ⟨n, hn, rfl | rfl⟩ := hw
  · have ha : Advance S s (.descend [] []) s (.ascend [] []) := .bottom
    refine ⟨_, _, .work hi ha, h.setWorker (.work hi ha) ?_ rfl (fun _ h => h) (fun _ _ h => h)
      (.inr (.inr ⟨n, hn, .inr rfl⟩))⟩
    exact nests_work hi ha
  · exact ⟨_, _, .finish hi, h.setWorker (.finish hi) (nests_finish hi) rfl
      (fun m hm => hm.resolve hn (by simp)) (fun m l hm => (chunk_resolve n [] m).trans hm)
      (.inl rfl)⟩

theorem Gathering.take (h : s.Gathering S num input) {i : ℕ} {e : ℕ × List α}
    {ts : List (ℕ × List α)} (hi : s.pool[i]? = some .idle) (ht : s.tasks = e :: ts) :
    ∃ a s', Step S s a s' ∧ s'.Gathering S num input := by
  obtain ⟨n, l⟩ := e
  refine ⟨_, _, .take hi ht, h.setWorker (.take hi ht) (nests_take hi ht) rfl (fun _ h => h)
    (fun _ _ h => h) ?_⟩
  have hn : s.chunk n = some l := h.inv.queued (n, l) (ht ▸ List.mem_cons_self)
  cases l with
  | nil => exact .inr (.inr ⟨n, hn, .inl rfl⟩)
  | cons p xs => exact .inr (.inl ⟨n, _, rfl, .inl (List.cons_ne_nil _ _)⟩)

/-- A thread with at most one element left to sort commits no nonempty chunk any more. -/
theorem ahead_eq_zero (h : ∀ p x xs fs, c ≠ .descend (p :: x :: xs) fs) : c.ahead S = 0 := by
  match c, h with
  | .descend [] fs, _ => exact S.lowerCount_nil
  | .descend [p] fs, _ => exact S.lowerCount_singleton p
  | .descend (p :: x :: xs) fs, h => exact absurd rfl (h p x xs fs)
  | .ascend r fs, _ => rfl

/-- As long as there are as many nonempty tasks as workers, the gathering goes on. -/
theorem gathering_progress (h : s.Gathering S num input) (hle : poolSize num ≤ S.lowerCount input)
    (hg : ¬ ∀ w ∈ s.pool, s.HeldBy (· ≠ []) w) :
    ∃ a s', Step S s a s' ∧ s'.Gathering S num input := by
  by_cases hA : ∀ p x xs fs, s.caller ≠ .descend (p :: x :: xs) fs
  swap
  · push Not at hA
    obtain ⟨p, x, xs, fs, hc⟩ := hA
    exact h.caller hc
  by_cases hB : ∀ n p x xs fs, .working n (.descend (p :: x :: xs) fs) ∉ s.pool
  swap
  · push Not at hB
    obtain ⟨n, p, x, xs, fs, hw⟩ := hB
    obtain ⟨i, hi⟩ := List.mem_iff_getElem?.mp hw
    exact h.commit hi
  push Not at hg
  obtain ⟨w, hw, hheld⟩ := hg
  obtain ⟨i, hi⟩ := List.mem_iff_getElem?.mp hw
  rcases h.workers w hw with rfl | hw' | hw'
  · cases ht : s.tasks with
    | cons e ts => exact h.take hi ht
    | nil =>
      -- now at most the workers other than this one hold a nonempty task
      exfalso
      have hlt : (s.pool.map (Worker.nests S)).sum < (s.pool.map fun _ => 1).sum := by
        refine List.sum_lt_sum _ _ (fun w hw => ?_) ⟨.idle, hw, by simp [Worker.nests]⟩
        cases w with
        | idle => exact Nat.zero_le _
        | working n c =>
          have hc : c.ahead S = 0 := ahead_eq_zero fun p x xs fs e => hB n p x xs fs (e ▸ hw)
          have := c.nested_le
          simp only [Worker.nests]
          omega
      have hsum : s.nests S = (s.pool.map (Worker.nests S)).sum := by
        simp [nests, ahead_eq_zero hA, tasksCount, ht]
      have hone : (s.pool.map fun _ => 1).sum = poolSize num := by
        rw [← h.length]
        simp
      rw [hone, ← hsum, h.nests_eq] at hlt
      omega
  · exact absurd hw' hheld
  · exact h.trivial hi hw'

/-! ## Closing -/

/-- Once every worker holds a task that it cannot finish. -/
structure Closing (s : Sorter α) : Prop where
  inv : s.Inv
  pool_ne : s.pool ≠ []
  held : ∀ w ∈ s.pool, s.HeldBy (fun _ => True) w

/-- Every worker waits for a task that has not returned. -/
def Blocked (s : Sorter α) : Prop :=
  ∀ w ∈ s.pool, ∃ n, w.awaits = some n ∧ s.unfinished n = true

theorem Closing.work (h : s.Closing) {i n : ℕ} (hi : s.pool[i]? = some (.working n c))
    (ha : Advance S s c t c') (hc : t.Held (fun _ => True) c') :
    ∃ a s', Step S s a s' ∧ s'.Closing := by
  refine ⟨_, _, .work hi ha, inv_step h.inv (.work hi ha), ?_, ?_⟩
  · rw [setWorker_pool, ha.pool, Ne, List.set_eq_nil_iff]
    exact h.pool_ne
  · rw [setWorker_pool, ha.pool]
    exact forall_mem_set (fun w hw => (h.held w hw).mono fun m hm => ha.pending hm)
      ⟨n, c', rfl, hc⟩

/-- A worker that is not blocked goes on, and is still held afterwards. -/
theorem closing_progress (h : s.Closing) (hb : ¬ s.Blocked) : ∃ a s', Step S s a s' ∧ s'.Closing := by
  unfold Blocked at hb
  push Not at hb
  obtain ⟨w, hw, hb⟩ := hb
  obtain ⟨i, hi⟩ := List.mem_iff_getElem?.mp hw
  obtain ⟨n, c, rfl, hc⟩ := h.held w hw
  match c, hc with
  | .descend [] fs, hc => exact h.work hi .bottom (hc.resolve_left fun h => h rfl)
  | .descend (p :: xs) fs, _ => exact h.work hi .commit (held_commit (.inr trivial))
  | .ascend r [], hc => simp [Held] at hc
  | .ascend r (f :: fs), hc =>
    have hu : s.unfinished f.lower = false := by simpa using hb f.lower rfl
    have hlt := (h.inv.younger n _ hw f List.mem_cons_self).2
    obtain ⟨v, hv⟩ := ready_of_finished hlt hu
    refine h.work hi (.join hv) ?_
    obtain ⟨g, hg, hp⟩ := hc
    rcases List.mem_cons.mp hg with rfl | hg
    · rw [hp.1] at hu
      cases hu
    · exact ⟨g, hg, hp⟩

/-- Where every worker is blocked nothing unfinished is served: a worker waits for a younger task
than its own, so the waiting ends in `tasks_`. -/
theorem unserved_of_blocked (hI : s.Inv) (hb : s.Blocked) {n : ℕ} (hn : s.unfinished n = true) :
    s.Unserved n := by
  induction hk : s.committed.length - n using Nat.strongRecOn generalizing n with
  | _ k ih =>
    rcases hI.mem_of_unfinished hn with ⟨l, hl⟩ | ⟨c, hc⟩
    · exact .queued hl
    · obtain ⟨m, hm, hu⟩ := hb _ hc
      have hlt : n < m := by
        match c, hm with
        | .ascend r (f :: fs), hm =>
          obtain rfl := Option.some.inj hm
          exact (hI.younger n _ hc f List.mem_cons_self).1
      have := lt_of_unfinished hu
      exact .waiting hc hm (ih _ (by omega) hu rfl)

end Sorter

open Sorter

theorem inv_of_sorter_reachable {num : ℕ} {input : List α} {s : Sorter α}
    (h : (sorter S num input).Reachable s) : s.Inv ∧ s.pool.length = poolSize num ∧
      s.nests S ≤ S.lowerCount input := by
  refine h.invariant (P := fun s => s.Inv ∧ s.pool.length = poolSize num ∧
    s.nests S ≤ S.lowerCount input) ?_ ?_
  · rintro _ rfl
    exact ⟨inv_initial num input, by simp [initial], (nests_initial num input).le⟩
  · rintro s a s' _ ⟨hI, hl, hn⟩ _ hs
    have hs := step_iff.mp hs
    exact ⟨inv_step hI hs, (length_pool_step hs).trans hl, (nests_step hs).trans hn⟩

/-- The schedule that gathers and closes. -/
theorem deadlock_reachable {num : ℕ} {input : List α} (hle : poolSize num ≤ S.lowerCount input) :
    ∃ s, (sorter S num input).Reachable s ∧ s.Deadlock := by
  have hstep : ∀ {s a s'}, Step S s a s' → (sorter S num input).step s a = some s' := step_iff.mpr
  obtain ⟨s, hs, hG, hheld⟩ := Machine.exists_leads_of_measure (M := sorter S num input)
    (I := Gathering S num input) (G := fun s => ∀ w ∈ s.pool, s.HeldBy (· ≠ []) w) work
    (fun s h hg =>
      let ⟨a, s', hs, h'⟩ := gathering_progress h hle hg
      ⟨a, s', hstep hs, h', work_step hs⟩) _ (gathering_initial num input)
  have hC : s.Closing := by
    refine ⟨hG.inv, ?_, fun w hw => (hheld w hw).mono fun n ⟨hu, l, hl, _⟩ => ⟨hu, l, hl, trivial⟩⟩
    have := poolSize_pos num
    exact List.length_pos_iff.mp (by rw [hG.length]; exact this)
  obtain ⟨t, ht, hC, hb⟩ := Machine.exists_leads_of_measure (M := sorter S num input)
    (I := Closing) (G := Blocked) work
    (fun s h hb =>
      let ⟨a, s', hs, h'⟩ := closing_progress h hb
      ⟨a, s', hstep hs, h', work_step hs⟩) s hC
  refine ⟨t, Machine.Reachable.leads (.init rfl) (hs.trans ht), hC.pool_ne, fun w hw => ?_⟩
  obtain ⟨n, hn, hu⟩ := hb w hw
  exact ⟨n, hn, hu, unserved_of_blocked hC.inv hb hu⟩

/-- **Deadlock freedom.** No schedule of the sort deadlocks exactly if its recursion commits fewer
tasks with a nonempty chunk than the pool has workers. -/
theorem sort_deadlock_free_iff (S : Sorting α) (num : ℕ) (input : List α) :
    (∀ s, (sorter S num input).Reachable s → ¬ s.Deadlock) ↔
      S.lowerCount input < poolSize num := by
  constructor
  · intro h
    by_contra hle
    obtain ⟨s, hs, hd⟩ := deadlock_reachable (Nat.le_of_not_lt hle)
    exact h s hs hd
  · intro hlt s hs hd
    obtain ⟨-, hl, hn⟩ := inv_of_sorter_reachable hs
    have := length_le_nests (S := S) hd
    omega

/-- The list of `TestThreadPoolSort` on two workers. They take the tasks for `1, 0, 5, 2` and for
`0`, and the caller waits as well. -/
theorem testThreadPoolSort_deadlock :
    ∃ as s, (sorter (.stable fun x y : ℤ => x < y) 2 [6, 1, 0, 5, 2, 9, 11]).run
        (.initial 2 [6, 1, 0, 5, 2, 9, 11]) as = some s ∧ s.Deadlock ∧
      ∃ n, s.caller.awaits = some n ∧ s.unfinished n = true := by
  refine ⟨[.caller, .worker 0, .worker 0, .worker 0, .worker 0, .worker 1, .worker 1, .worker 1,
    .caller, .caller, .caller],
    { pool := [.working 0 (.ascend [] [⟨5, 2⟩, ⟨1, 1⟩]), .working 1 (.ascend [] [⟨0, 3⟩])]
      caller := .ascend [] [⟨11, 5⟩, ⟨9, 4⟩, ⟨6, 0⟩]
      tasks := [(2, [2]), (3, []), (4, []), (5, [])]
      committed := [⟨[1, 0, 5, 2], none⟩, ⟨[0], none⟩, ⟨[2], none⟩, ⟨[], none⟩, ⟨[], none⟩,
        ⟨[], none⟩] },
    rfl, ⟨List.cons_ne_nil _ _, fun w hw => ?_⟩, 5, rfl, rfl⟩
  rcases List.mem_cons.mp hw with rfl | hw
  · exact ⟨2, rfl, rfl, .queued (l := [2]) (by simp)⟩
  · obtain rfl := List.mem_singleton.mp hw
    exact ⟨3, rfl, rfl, .queued (l := []) (by simp)⟩

end SelfStudy.Pool
