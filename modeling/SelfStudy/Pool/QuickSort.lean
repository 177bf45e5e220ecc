import SelfStudy.Pool.ThreadPool

/-!
# Sorting on the pool

`pool_thread_quick_sort` of `main.cpp`, called by one thread that is not of the pool. A call takes
off the pivot, commits itself on the lower chunk, recurses on the higher chunk and then gets the
lower result from the future. So a thread first goes down through its higher chunks, committing one
task a level, and then up again, waiting for the tasks in the opposite order.

Of the pool there is what its workers do with `tasks_`: a section of `cv_mt_` is one step. The pool
is a static object and `stop()` runs in its destructor, so it has no part here.
-/

namespace SelfStudy.Pool

open Lib

universe u

variable {α : Type u}

/-- `operator<` and `std::partition`, which permutes the range so that the elements that satisfy the
predicate come first. `partition` returns the range before and after the divide point. -/
structure Sorting (α : Type u) where
  lt : α → α → Bool
  partition : (α → Bool) → List α → List α × List α
  perm : ∀ p l, ((partition p l).1 ++ (partition p l).2).Perm l
  first : ∀ p l, ∀ x ∈ (partition p l).1, p x = true
  second : ∀ p l, ∀ x ∈ (partition p l).2, p x = false

namespace Sorting

/-- The partition that keeps the order inside the two parts. -/
def stable (lt : α → α → Bool) : Sorting α where
  lt := lt
  partition p l := (l.filter p, l.filter fun x => !p x)
  perm p l := List.filter_append_perm p l
  first p l x hx := (List.mem_filter.mp hx).2
  second p l x hx := by simpa using (List.mem_filter.mp hx).2

variable (S : Sorting α)

/-- `new_lower_chunk`. -/
def lower (p : α) (xs : List α) : List α := (S.partition (fun v => S.lt v p) xs).1

/-- What is left of `input`. -/
def higher (p : α) (xs : List α) : List α := (S.partition (fun v => S.lt v p) xs).2

theorem length_lower_add (p : α) (xs : List α) :
    (S.lower p xs).length + (S.higher p xs).length = xs.length := by
  rw [← List.length_append]
  exact (S.perm _ xs).length_eq

/-- How many of the tasks that the sort of the list commits, at any depth, have a nonempty chunk. -/
def lowerCount : List α → ℕ
  | [] => 0
  | p :: xs =>
    (if (S.lower p xs).isEmpty then 0 else 1 + lowerCount (S.lower p xs)) +
      lowerCount (S.higher p xs)
termination_by l => l.length
decreasing_by
  all_goals
    have := S.length_lower_add p xs
    simp only [List.length_cons]
    omega

/-- The tasks with a nonempty chunk among a committed one and those below it. -/
def chunkCount (t : List α) : ℕ := if t.isEmpty then 0 else 1 + S.lowerCount t

@[simp] theorem lowerCount_nil : S.lowerCount [] = 0 := by
  rw [lowerCount]

theorem lowerCount_cons (p : α) (xs : List α) :
    S.lowerCount (p :: xs) = S.chunkCount (S.lower p xs) + S.lowerCount (S.higher p xs) := by
  rw [lowerCount, chunkCount]

@[simp] theorem chunkCount_nil : S.chunkCount [] = 0 := rfl

theorem chunkCount_of_ne_nil {t : List α} (h : t ≠ []) :
    S.chunkCount t = 1 + S.lowerCount t := by
  simp [chunkCount, h]

theorem lower_nil (p : α) : S.lower p [] = [] := by
  have := S.length_lower_add p []
  rw [List.length_nil] at this
  exact List.length_eq_zero_iff.mp (by omega)

theorem higher_nil (p : α) : S.higher p [] = [] := by
  have := S.length_lower_add p []
  rw [List.length_nil] at this
  exact List.length_eq_zero_iff.mp (by omega)

theorem lowerCount_singleton (p : α) : S.lowerCount [p] = 0 := by
  rw [lowerCount_cons, lower_nil, higher_nil, chunkCount_nil, lowerCount_nil]

end Sorting

/-! ## Threads -/

/-- A level of the recursion: `partition_val`, and the number of the task committed there. -/
structure Frame (α : Type u) where
  pivot : α
  lower : ℕ
  deriving DecidableEq, Repr

/-- A thread inside `pool_thread_quick_sort`, about to sort `input`, or back with `result`. -/
inductive Call (α : Type u)
  | descend (input : List α) (frames : List (Frame α))
  | ascend (result : List α) (frames : List (Frame α))
  deriving DecidableEq, Repr

inductive Worker (α : Type u)
  | idle
  | working (task : ℕ) (call : Call α)
  deriving DecidableEq, Repr

/-- A committed task: its bound argument, and the value of its future once it has run. -/
structure PackagedTask (α : Type u) where
  chunk : List α
  value : Option (List α)
  deriving DecidableEq, Repr

/-- The caller, the pool with `tasks_`, and all tasks by their number. -/
structure Sorter (α : Type u) where
  pool : List (Worker α)
  caller : Call α
  tasks : List (ℕ × List α)
  committed : List (PackagedTask α)
  deriving DecidableEq, Repr

inductive SortAction
  | caller
  | worker (i : ℕ)
  deriving DecidableEq, Repr

def Call.frames : Call α → List (Frame α)
  | .descend _ fs => fs
  | .ascend _ fs => fs

/-- Bounds the steps that the thread has left, with those of the tasks it will commit. -/
def Call.work : Call α → ℕ
  | .descend input fs => 5 * input.length + fs.length + 2
  | .ascend _ fs => fs.length + 1

def Worker.work : Worker α → ℕ
  | .idle => 0
  | .working _ c => c.work

/-- The worker runs task `n`. -/
def Worker.runs (n : ℕ) : Worker α → Bool
  | .idle => false
  | .working m _ => m == n

namespace Sorter

def initial (num : ℕ) (input : List α) : Sorter α where
  pool := List.replicate (poolSize num) .idle
  caller := .descend input []
  tasks := []
  committed := []

@[simps] def setWorker (s : Sorter α) (i : ℕ) (w : Worker α) : Sorter α :=
  { s with pool := s.pool.set i w }

@[simps] def setCaller (s : Sorter α) (c : Call α) : Sorter α := { s with caller := c }

@[simps] def setTasks (s : Sorter α) (ts : List (ℕ × List α)) : Sorter α := { s with tasks := ts }

/-- `commit` of a call on the chunk. -/
@[simps] def commit (s : Sorter α) (chunk : List α) : Sorter α :=
  { s with
    tasks := s.tasks ++ [(s.committed.length, chunk)]
    committed := s.committed ++ [⟨chunk, none⟩] }

/-- The task has run and returned the list. -/
@[simps] def resolve (s : Sorter α) (n : ℕ) (r : List α) : Sorter α :=
  { s with committed := s.committed.modify n fun k => ⟨k.chunk, some r⟩ }

/-- The value of the future of the task, if it is there. -/
def ready (s : Sorter α) (n : ℕ) : Option (List α) := s.committed[n]?.bind (·.value)

/-- The next step of a thread inside the function: the end of the recursion, a commit and the
recursive call, or `new_lower.get()` and the return to the level above. -/
def advance (S : Sorting α) (s : Sorter α) : Call α → Option (Sorter α × Call α)
  | .descend [] fs => some (s, .ascend [] fs)
  | .descend (p :: xs) fs =>
    some (s.commit (S.lower p xs), .descend (S.higher p xs) (⟨p, s.committed.length⟩ :: fs))
  | .ascend r (f :: fs) => (s.ready f.lower).map fun v => (s, .ascend (v ++ f.pivot :: r) fs)
  | .ascend _ [] => none

/-- The next step of worker `i`. -/
def workerStep (S : Sorting α) (s : Sorter α) (i : ℕ) : Worker α → Option (Sorter α)
  | .idle =>
    match s.tasks with
    | [] => none
    | (n, t) :: ts => some ((s.setTasks ts).setWorker i (.working n (.descend t [])))
  | .working n (.ascend r []) => some ((s.resolve n r).setWorker i .idle)
  | .working n c => (s.advance S c).map fun q => q.1.setWorker i (.working n q.2)

def step (S : Sorting α) (s : Sorter α) : SortAction → Option (Sorter α)
  | .caller => (s.advance S s.caller).map fun q => q.1.setCaller q.2
  | .worker i => s.pool[i]?.bind (s.workerStep S i)

/-! ## What a step can do -/

inductive Advance (S : Sorting α) (s : Sorter α) : Call α → Sorter α → Call α → Prop
  | bottom {fs} : Advance S s (.descend [] fs) s (.ascend [] fs)
  | commit {p xs fs} : Advance S s (.descend (p :: xs) fs) (s.commit (S.lower p xs))
      (.descend (S.higher p xs) (⟨p, s.committed.length⟩ :: fs))
  | join {r f fs v} (h : s.ready f.lower = some v) :
      Advance S s (.ascend r (f :: fs)) s (.ascend (v ++ f.pivot :: r) fs)

inductive Step (S : Sorting α) (s : Sorter α) : SortAction → Sorter α → Prop
  | caller {t c} (h : Advance S s s.caller t c) : Step S s .caller (t.setCaller c)
  | take {i n t ts} (hi : s.pool[i]? = some .idle) (ht : s.tasks = (n, t) :: ts) :
      Step S s (.worker i) ((s.setTasks ts).setWorker i (.working n (.descend t [])))
  | finish {i n r} (hi : s.pool[i]? = some (.working n (.ascend r []))) :
      Step S s (.worker i) ((s.resolve n r).setWorker i .idle)
  | work {i n c t c'} (hi : s.pool[i]? = some (.working n c)) (h : Advance S s c t c') :
      Step S s (.worker i) (t.setWorker i (.working n c'))

variable {S : Sorting α} {s s' t : Sorter α} {c c' : Call α} {a : SortAction}

theorem advance_iff : s.advance S c = some (t, c') ↔ Advance S s c t c' := by
  constructor
  · intro h
    match c, h with
    | .descend [] fs, h =>
      obtain ⟨rfl, rfl⟩ := Prod.mk.inj (Option.some.inj h)
      exact .bottom
    | .descend (p :: xs) fs, h =>
      obtain ⟨rfl, rfl⟩ := Prod.mk.inj (Option.some.inj h)
      exact .commit
    | .ascend r (f :: fs), h =>
      obtain ⟨v, hv, h⟩ := Option.map_eq_some_iff.mp h
      obtain ⟨rfl, rfl⟩ := Prod.mk.inj h
      exact .join hv
  · intro h
    cases h with
    | bottom => rfl
    | commit => rfl
    | join h => simp [advance, h]

/-- **Inversion.** -/
theorem step_iff : s.step S a = some s' ↔ Step S s a s' := by
  constructor
  · intro h
    cases a with
    | caller =>
      obtain ⟨⟨t, c⟩, hq, rfl⟩ := Option.map_eq_some_iff.mp h
      exact .caller (advance_iff.mp hq)
    | worker i =>
      obtain ⟨w, hi, h⟩ := Option.bind_eq_some_iff.mp h
      match w, h with
      | .idle, h =>
        simp only [workerStep] at h
        split at h <;> rename_i ht
        · cases h
        · exact Option.some.inj h ▸ .take hi ht
      | .working n (.ascend r []), h => exact Option.some.inj h ▸ .finish hi
      | .working n (.ascend r (f :: fs)), h =>
        obtain ⟨⟨t, c'⟩, hq, rfl⟩ := Option.map_eq_some_iff.mp h
        exact .work hi (advance_iff.mp hq)
      | .working n (.descend xs fs), h =>
        obtain ⟨⟨t, c'⟩, hq, rfl⟩ := Option.map_eq_some_iff.mp h
        exact .work hi (advance_iff.mp hq)
  · intro h
    cases h with
    | caller h => simp [step, advance_iff.mpr h]
    | take hi ht => simp [step, hi, workerStep, ht]
    | finish hi => simp [step, hi, workerStep]
    | @work i n c t c' hi h =>
      have hw : s.workerStep S i (.working n c) = (s.advance S c).map fun q =>
          q.1.setWorker i (.working n q.2) := by
        cases h <;> rfl
      simp [step, hi, hw, advance_iff.mpr h]

@[simp] theorem Advance.pool (h : Advance S s c t c') : t.pool = s.pool := by cases h <;> rfl

@[simp] theorem Advance.caller (h : Advance S s c t c') : t.caller = s.caller := by cases h <;> rfl

/-! ## Tasks -/

/-- The argument of task `n`. -/
def chunk (s : Sorter α) (n : ℕ) : Option (List α) := s.committed[n]?.map (·.chunk)

/-- Task `n` has been committed and has not returned. -/
def unfinished (s : Sorter α) (n : ℕ) : Bool := s.committed[n]?.any (·.value.isNone)

theorem chunk_commit (l : List α) (n : ℕ) :
    (s.commit l).chunk n = if n = s.committed.length then some l else s.chunk n := by
  unfold chunk
  rw [commit_committed, getElem?_snoc]
  split_ifs <;> rfl

theorem chunk_commit_of_some {n : ℕ} {k : List α} (h : s.chunk n = some k) (l : List α) :
    (s.commit l).chunk n = some k := by
  rw [chunk_commit, if_neg, h]
  rintro rfl
  rw [chunk, List.getElem?_eq_none (Nat.le_refl _)] at h
  cases h

theorem chunk_resolve (m : ℕ) (r : List α) (n : ℕ) : (s.resolve m r).chunk n = s.chunk n := by
  unfold chunk
  rw [resolve_committed, List.getElem?_modify]
  cases s.committed[n]? with
  | none => rfl
  | some k => simp only [Option.map_eq_map, Option.map_some]; split_ifs <;> rfl

theorem unfinished_commit (l : List α) (n : ℕ) :
    (s.commit l).unfinished n = if n = s.committed.length then true else s.unfinished n := by
  unfold unfinished
  rw [commit_committed, getElem?_snoc]
  split_ifs <;> rfl

theorem unfinished_resolve (m : ℕ) (r : List α) (n : ℕ) :
    (s.resolve m r).unfinished n = if n = m then false else s.unfinished n := by
  unfold unfinished
  rw [resolve_committed, List.getElem?_modify]
  by_cases e : n = m
  · subst e
    cases s.committed[n]? <;> simp
  · simp [e, Ne.symm e]

theorem lt_of_unfinished {n : ℕ} (h : s.unfinished n = true) : n < s.committed.length := by
  obtain ⟨k, hk, -⟩ := (Option.any_eq_true _ _).mp h
  exact (List.getElem?_eq_some_iff.mp hk).1

/-- A committed task is unfinished, or its future is ready. -/
theorem ready_of_finished {n : ℕ} (hn : n < s.committed.length) (h : s.unfinished n = false) :
    ∃ v, s.ready n = some v := by
  unfold unfinished at h
  unfold ready
  rw [List.getElem?_eq_getElem hn] at h ⊢
  exact Option.isSome_iff_exists.mp (by simpa using h)

/-- What holds in every reachable state: an unfinished task is in `tasks_` or run by a worker, in
one of these places and once, and a worker waits for tasks younger than its own. -/
structure Inv (s : Sorter α) : Prop where
  queued : ∀ e ∈ s.tasks, s.chunk e.1 = some e.2
  conserved : ∀ n, s.tasks.countP (fun e => e.1 == n) + s.pool.countP (Worker.runs n) =
    if s.unfinished n then 1 else 0
  younger : ∀ n c, .working n c ∈ s.pool → ∀ f ∈ c.frames,
    n < f.lower ∧ f.lower < s.committed.length

theorem Inv.unfinished_of_working (h : s.Inv) {n : ℕ} (hw : .working n c ∈ s.pool) :
    s.unfinished n = true := by
  have hpos : 0 < s.pool.countP (Worker.runs n) :=
    List.countP_pos_iff.mpr ⟨_, hw, by simp [Worker.runs]⟩
  have := h.conserved n
  by_contra hu
  rw [if_neg hu] at this
  omega

theorem Inv.unfinished_of_mem (h : s.Inv) {e : ℕ × List α} (he : e ∈ s.tasks) :
    s.unfinished e.1 = true := by
  have hpos : 0 < s.tasks.countP (fun d => d.1 == e.1) :=
    List.countP_pos_iff.mpr ⟨_, he, by simp⟩
  have := h.conserved e.1
  by_contra hu
  rw [if_neg hu] at this
  omega

theorem Inv.mem_of_unfinished (h : s.Inv) {n : ℕ} (hu : s.unfinished n = true) :
    (∃ l, (n, l) ∈ s.tasks) ∨ ∃ c, .working n c ∈ s.pool := by
  have hc := h.conserved n
  rw [if_pos hu] at hc
  by_cases ht : 0 < s.tasks.countP (fun e => e.1 == n)
  · obtain ⟨⟨m, l⟩, he, hm⟩ := List.countP_pos_iff.mp ht
    obtain rfl : m = n := by simpa using hm
    exact .inl ⟨l, he⟩
  · obtain ⟨w, hw, hr⟩ := List.countP_pos_iff.mp (show 0 < s.pool.countP (Worker.runs n) by omega)
    cases w with
    | idle => simp [Worker.runs] at hr
    | working m c =>
      obtain rfl : m = n := by simpa [Worker.runs] using hr
      exact .inr ⟨c, hw⟩

theorem inv_initial (num : ℕ) (input : List α) : (initial num input).Inv where
  queued := by simp [initial]
  conserved n := by simp [initial, unfinished, Worker.runs, List.countP_replicate]
  younger := by simp [initial, List.mem_replicate]

theorem inv_commit (h : s.Inv) (l : List α) : (s.commit l).Inv where
  queued e he := by
    rw [chunk_commit]
    rcases List.mem_append.mp he with he | he
    · have hlt := lt_of_unfinished (h.unfinished_of_mem he)
      rw [if_neg (Nat.ne_of_lt hlt), h.queued e he]
    · obtain rfl := List.mem_singleton.mp he
      rw [if_pos rfl]
  conserved n := by
    have hc := h.conserved n
    rw [unfinished_commit]
    simp only [commit_tasks, commit_pool, List.countP_append, List.countP_singleton]
    by_cases e : n = s.committed.length
    · have hu : ¬ s.unfinished n = true := fun hu => absurd (lt_of_unfinished hu) (by omega)
      rw [if_neg hu] at hc
      simp only [e, beq_self_eq_true, if_true] at hc ⊢
      omega
    · have e' : (s.committed.length == n) = false := beq_eq_false_iff_ne.mpr (Ne.symm e)
      simp only [e, e', if_false, Bool.false_eq_true]
      omega
  younger n c hw f hf := by
    have := h.younger n c hw f hf
    simp only [commit_committed, List.length_append, List.length_singleton]
    omega

theorem Advance.inv (h : s.Inv) (ha : Advance S s c t c') : t.Inv := by
  cases ha with
  | bottom => exact h
  | commit => exact inv_commit h _
  | join => exact h

/-- The frames of a thread after its step: the old ones, and one for the task it commits. -/
theorem Advance.mem_frames (ha : Advance S s c t c') {f : Frame α} (hf : f ∈ c'.frames) :
    f ∈ c.frames ∨ f.lower = s.committed.length ∧ f.lower < t.committed.length := by
  cases ha with
  | bottom => exact .inl hf
  | commit =>
    rcases List.mem_cons.mp hf with rfl | hf
    · exact .inr ⟨rfl, by simp⟩
    · exact .inl hf
  | join => exact .inl (List.mem_cons_of_mem _ hf)

theorem Advance.length_le (ha : Advance S s c t c') : s.committed.length ≤ t.committed.length := by
  cases ha <;> simp

theorem inv_step (h : s.Inv) (hs : Step S s a s') : s'.Inv := by
  cases hs with
  | caller ha =>
    have ht := ha.inv h
    exact ⟨ht.queued, ht.conserved, ht.younger⟩
  | @take i n l ts hi ht =>
    refine ⟨fun e he => h.queued e (ht ▸ List.mem_cons_of_mem _ he), fun m => ?_, ?_⟩
    · have hc := h.conserved m
      rw [ht, List.countP_cons] at hc
      have hp : (s.pool.set i (.working n (.descend l []))).countP (Worker.runs m) + 0 =
          s.pool.countP (Worker.runs m) + if (n, l).1 == m then 1 else 0 :=
        countP_set_add (Worker.runs m) hi _
      show ts.countP _ + (s.pool.set i _).countP _ = if s.unfinished m then 1 else 0
      omega
    · intro m c hw f hf
      rcases List.mem_or_eq_of_mem_set hw with hw | hw
      · exact h.younger m c hw f hf
      · obtain ⟨-, rfl⟩ := Worker.working.inj hw
        simp [Call.frames] at hf
  | @finish i n r hi =>
    have hw := List.mem_of_getElem? hi
    refine ⟨fun e he => (chunk_resolve n r e.1).trans (h.queued e he), fun m => ?_, ?_⟩
    · have hc := h.conserved m
      have hp := countP_set_add (Worker.runs m) hi .idle
      have hu : unfinished ((s.resolve n r).setWorker i .idle) m = _ := unfinished_resolve n r m
      rw [hu]
      show s.tasks.countP _ + (s.pool.set i _).countP _ = _
      simp only [Worker.runs] at hp
      by_cases e : m = n
      · subst e
        rw [if_pos (h.unfinished_of_working hw)] at hc
        simp only [beq_self_eq_true, if_true, Bool.false_eq_true, if_false] at hp ⊢
        omega
      · have e' : (n == m) = false := beq_eq_false_iff_ne.mpr (Ne.symm e)
        simp only [e, e', if_false, Bool.false_eq_true] at hp ⊢
        omega
    · intro m c hw f hf
      rcases List.mem_or_eq_of_mem_set hw with hw | hw
      · simpa using h.younger m c hw f hf
      · cases hw
  | @work i n c t c' hi ha =>
    have ht := ha.inv h
    refine ⟨ht.queued, fun m => ?_, ?_⟩
    · have hc := ht.conserved m
      have hi' : t.pool[i]? = some (.working n c) := ha.pool ▸ hi
      have hp : (t.pool.set i (.working n c')).countP (Worker.runs m) =
          t.pool.countP (Worker.runs m) :=
        Nat.add_right_cancel (countP_set_add (Worker.runs m) hi' (.working n c'))
      show t.tasks.countP _ + (t.pool.set i _).countP _ = if t.unfinished m then 1 else 0
      omega
    · intro m d hw f hf
      rcases List.mem_or_eq_of_mem_set hw with hw | hw
      · exact ht.younger m d hw f hf
      · obtain ⟨rfl, rfl⟩ := Worker.working.inj hw
        have hmem := List.mem_of_getElem? hi
        rcases ha.mem_frames hf with hf | ⟨hlow, hlt⟩
        · have := h.younger _ _ hmem f hf
          exact ⟨this.1, Nat.lt_of_lt_of_le this.2 ha.length_le⟩
        · exact ⟨hlow ▸ lt_of_unfinished (h.unfinished_of_working hmem), hlt⟩

/-! ## Termination -/

def tasksWork (s : Sorter α) : ℕ := (s.tasks.map fun e => 5 * e.2.length + 3).sum

/-- Bounds the steps left, those of tasks not committed yet included. -/
def work (s : Sorter α) : ℕ := s.caller.work + (s.pool.map Worker.work).sum + s.tasksWork

theorem Advance.work_lt (ha : Advance S s c t c') :
    t.tasksWork + c'.work < s.tasksWork + c.work := by
  cases ha with
  | bottom =>
    simp only [Call.work, List.length_nil]
    omega
  | @commit p xs fs =>
    have := S.length_lower_add p xs
    unfold tasksWork
    simp only [commit_tasks, List.map_append, List.map_singleton, List.sum_append,
      List.sum_singleton, Call.work, List.length_cons]
    omega
  | join =>
    simp only [Call.work, List.length_cons]
    omega

/-- **Termination.** Every step leaves less work, so every run ends. -/
theorem work_step (hs : Step S s a s') : s'.work < s.work := by
  cases hs with
  | @caller t c ha =>
    have := ha.work_lt
    show c.work + (t.pool.map Worker.work).sum + t.tasksWork < _
    rw [ha.pool]
    unfold work
    omega
  | @take i n l ts hi ht =>
    have hp := sum_map_set Worker.work hi (.working n (.descend l []))
    simp only [Worker.work, Call.work, List.length_nil] at hp
    have hq : s.tasksWork = 5 * l.length + 3 + (ts.map fun e => 5 * e.2.length + 3).sum := by
      unfold tasksWork
      rw [ht, List.map_cons, List.sum_cons]
    show s.caller.work + ((s.pool.set i _).map Worker.work).sum + (ts.map _).sum < _
    unfold work
    omega
  | @finish i n r hi =>
    have hp := sum_map_set Worker.work hi .idle
    simp only [Worker.work, Call.work, List.length_nil] at hp
    show s.caller.work + ((s.pool.set i _).map Worker.work).sum + s.tasksWork < _
    unfold work
    omega
  | @work i n c t c' hi ha =>
    have hp := sum_map_set Worker.work hi (.working n c')
    simp only [Worker.work] at hp
    have := ha.work_lt
    show t.caller.work + ((t.pool.set i _).map Worker.work).sum + t.tasksWork < _
    rw [ha.pool, ha.caller]
    unfold Sorter.work
    omega

end Sorter

/-- One call of the function on `input`, with the pool whose constructor was called with `num`. -/
def sorter (S : Sorting α) (num : ℕ) (input : List α) : Machine (Sorter α) SortAction where
  init s := s = .initial num input
  step := Sorter.step S

end SelfStudy.Pool
