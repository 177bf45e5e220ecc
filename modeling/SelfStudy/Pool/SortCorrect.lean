import SelfStudy.Pool.QuickSort
import Mathlib.Order.Defs.Unbundled

/-!
# What the sort returns

Each thread inside `pool_thread_quick_sort` works towards the sorted list of its argument: what it
holds, put back between the lower chunks and the pivots of its frames, is a permutation of the
argument (`Frames`). The value of a future is the sorted chunk of its task, so a return to the level
above joins two sorted lists around the pivot.

Nothing is sorted twice and nothing is left out: the tasks committed and the elements still to be
taken as pivots add up to the length of the input (`toCommit_step`). Each task that has not returned
is awaited by a frame, so none is left once the caller is back.
-/

namespace SelfStudy.Pool

open Lib

universe u

variable {α : Type u} {S : Sorting α}

namespace Sorting

/-- No element is less than one before it. -/
def Sorted (S : Sorting α) (l : List α) : Prop := l.Pairwise fun x y => S.lt y x = false

theorem lt_of_mem_lower {p x : α} {xs : List α} (h : x ∈ S.lower p xs) : S.lt x p = true :=
  S.first _ xs x h

theorem not_lt_of_mem_higher {p x : α} {xs : List α} (h : x ∈ S.higher p xs) : S.lt x p = false :=
  S.second _ xs x h

theorem perm_cons (p : α) (xs : List α) : (S.lower p xs ++ p :: S.higher p xs).Perm (p :: xs) :=
  List.perm_middle.trans ((S.perm _ xs).cons p)

theorem length_lower_lt (p : α) (xs : List α) : (S.lower p xs).length < (p :: xs).length := by
  have := S.length_lower_add p xs
  rw [List.length_cons]
  omega

theorem length_higher_lt (p : α) (xs : List α) : (S.higher p xs).length < (p :: xs).length := by
  have := S.length_lower_add p xs
  rw [List.length_cons]
  omega

/-- Two sorted lists on the two sides of the pivot. -/
theorem Sorted.append_cons [hS : IsStrictWeakOrder α fun x y => S.lt x y = true] {v r : List α} {p : α}
    (hv : S.Sorted v) (hr : S.Sorted r) (hlow : ∀ x ∈ v, S.lt x p = true)
    (hhigh : ∀ y ∈ r, S.lt y p = false) : S.Sorted (v ++ p :: r) := by
  have asymm : ∀ {x y}, S.lt x y = true → S.lt y x = false := by
    intro x y hxy
    by_contra hyx
    rw [Bool.not_eq_false] at hyx
    exact hS.irrefl x (hS.trans x y x hxy hyx)
  refine List.pairwise_append.mpr ⟨hv, List.pairwise_cons.mpr ⟨hhigh, hr⟩, fun x hx y hy => ?_⟩
  have hxp := hlow x hx
  rcases List.mem_cons.mp hy with rfl | hy
  · exact asymm hxp
  · by_contra hyx
    rw [Bool.not_eq_false] at hyx
    have hyp : S.lt y p = true := hS.trans y x p hyx hxp
    rw [hhigh y hy] at hyp
    cases hyp

end Sorting

namespace Sorter

variable {s s' t : Sorter α} {c c' : Call α} {a : SortAction} {l m m' : List α}

/-! ## What a thread holds -/

/-- What the thread holds at its level is `m`, and with the frames it makes up `l`. -/
def Frames (S : Sorting α) (s : Sorter α) (l : List α) : List α → List (Frame α) → Prop
  | m, [] => m.Perm l
  | m, f :: fs => ∃ k, s.chunk f.lower = some k ∧ (∀ x ∈ k, S.lt x f.pivot = true) ∧
      (∀ x ∈ m, S.lt x f.pivot = false) ∧ Frames S s l (k ++ f.pivot :: m) fs

/-- The thread works towards the sorted list of `l`. -/
def Sorts (S : Sorting α) (s : Sorter α) (l : List α) : Call α → Prop
  | .descend input fs => s.Frames S l input fs
  | .ascend r fs => s.Frames S l r fs ∧ S.Sorted r

theorem Frames.perm {fs : List (Frame α)} (h : s.Frames S l m fs) (hm : m'.Perm m) :
    s.Frames S l m' fs := by
  induction fs generalizing m m' with
  | nil => exact hm.trans h
  | cons f fs ih =>
    obtain ⟨k, hk, hlow, hhigh, h⟩ := h
    exact ⟨k, hk, hlow, fun x hx => hhigh x (hm.mem_iff.mp hx), ih h ((hm.cons f.pivot).append_left k)⟩

theorem Frames.mono {fs : List (Frame α)} (h : s.Frames S l m fs)
    (hc : ∀ n k, s.chunk n = some k → t.chunk n = some k) : t.Frames S l m fs := by
  induction fs generalizing m with
  | nil => exact h
  | cons f fs ih =>
    obtain ⟨k, hk, hlow, hhigh, h⟩ := h
    exact ⟨k, hc _ _ hk, hlow, hhigh, ih h⟩

theorem Sorts.mono (h : s.Sorts S l c) (hc : ∀ n k, s.chunk n = some k → t.chunk n = some k) :
    t.Sorts S l c := by
  cases c with
  | descend input fs => exact Frames.mono h hc
  | ascend r fs => exact ⟨h.1.mono hc, h.2⟩

/-- The value of a future is the sorted chunk of its task. -/
def Resolved (S : Sorting α) (s : Sorter α) : Prop :=
  ∀ n v, s.ready n = some v → ∃ k, s.chunk n = some k ∧ v.Perm k ∧ S.Sorted v

/-- What holds in every reachable state of the sort of `input`. -/
structure Correct (S : Sorting α) (input : List α) (s : Sorter α) : Prop where
  inv : s.Inv
  caller : s.Sorts S input s.caller
  worker : ∀ n c, .working n c ∈ s.pool → ∃ k, s.chunk n = some k ∧ s.Sorts S k c
  resolved : s.Resolved S

theorem Advance.chunk (ha : Advance S s c t c') {n : ℕ} {k : List α} (h : s.chunk n = some k) :
    t.chunk n = some k := by
  cases ha with
  | bottom => exact h
  | commit => exact chunk_commit_of_some h _
  | join => exact h

theorem ready_commit (l : List α) (n : ℕ) : (s.commit l).ready n = s.ready n := by
  unfold ready
  rw [commit_committed, getElem?_snoc]
  split_ifs with h
  · rw [h, List.getElem?_eq_none (Nat.le_refl _)]
    rfl
  · rfl

theorem Advance.resolved (ha : Advance S s c t c') (h : s.Resolved S) : t.Resolved S := by
  intro n v hv
  have hv : s.ready n = some v := by
    cases ha with
    | bottom => exact hv
    | commit => rwa [ready_commit] at hv
    | join => exact hv
  obtain ⟨k, hk, h⟩ := h n v hv
  exact ⟨k, ha.chunk hk, h⟩

/-- A thread inside the function goes on towards the sorted list. -/
theorem Sorts.advance [IsStrictWeakOrder α fun x y => S.lt x y = true] (h : s.Sorts S l c)
    (hr : s.Resolved S) (ha : Advance S s c t c') : t.Sorts S l c' := by
  cases ha with
  | bottom => exact ⟨h, List.Pairwise.nil⟩
  | @commit p xs fs =>
    have hfs : (s.commit (S.lower p xs)).Frames S l (p :: xs) fs :=
      Frames.mono h fun n k hk => chunk_commit_of_some hk _
    refine ⟨S.lower p xs, ?_, fun x hx => Sorting.lt_of_mem_lower hx,
      fun x hx => Sorting.not_lt_of_mem_higher hx, hfs.perm (Sorting.perm_cons p xs)⟩
    rw [chunk_commit, if_pos rfl]
  | @join r f fs v hv =>
    obtain ⟨⟨k, hk, hlow, hhigh, hfs⟩, hsorted⟩ := h
    obtain ⟨k', hk', hperm, hv⟩ := hr f.lower v hv
    obtain rfl := Option.some.inj (hk.symm.trans hk')
    refine ⟨hfs.perm (hperm.append_right _), ?_⟩
    exact hv.append_cons hsorted (fun x hx => hlow x (hperm.mem_iff.mp hx)) hhigh

theorem ready_resolve (n m : ℕ) (r : List α) : (s.resolve m r).ready n =
    if n = m then s.committed[n]?.map fun _ => r else s.ready n := by
  unfold ready
  rw [resolve_committed, List.getElem?_modify]
  by_cases e : n = m
  · subst e
    cases s.committed[n]? <;> simp
  · cases s.committed[n]? <;> simp [e, Ne.symm e]

theorem correct_initial (S : Sorting α) (num : ℕ) (input : List α) :
    Correct S input (initial num input) where
  inv := inv_initial num input
  caller := .refl _
  worker n c hw := by
    cases List.eq_of_mem_replicate hw
  resolved n v hv := by
    cases hv

theorem Correct.step [IsStrictWeakOrder α fun x y => S.lt x y = true] {input : List α}
    (h : s.Correct S input) (hs : Step S s a s') : s'.Correct S input := by
  refine ⟨inv_step h.inv hs, ?_, ?_, ?_⟩ <;> cases hs
  case refine_1.caller t c ha => exact (h.caller.advance h.resolved ha).mono fun _ _ hk => hk
  case refine_1.take i n k ts hi ht => exact h.caller.mono fun _ _ hk => hk
  case refine_1.finish i n r hi => exact h.caller.mono fun m k hk => (chunk_resolve n r m).trans hk
  case refine_1.work i n c t c' hi ha =>
    show (t.setWorker i _).Sorts S input t.caller
    rw [ha.caller]
    exact h.caller.mono fun m k hk => ha.chunk hk
  case refine_2.caller t c ha =>
    intro n d hw
    obtain ⟨k, hk, hd⟩ := h.worker n d (ha.pool ▸ hw)
    exact ⟨k, ha.chunk hk, hd.mono fun m k hk => ha.chunk hk⟩
  case refine_2.take i n k ts hi ht =>
    intro m d hw
    rcases List.mem_or_eq_of_mem_set hw with hw | hw
    · obtain ⟨k', hk, hd⟩ := h.worker m d hw
      exact ⟨k', hk, hd.mono fun _ _ hk => hk⟩
    · obtain ⟨rfl, rfl⟩ := Worker.working.inj hw
      exact ⟨k, h.inv.queued (m, k) (ht ▸ List.mem_cons_self), .refl _⟩
  case refine_2.finish i n r hi =>
    intro m d hw
    rcases List.mem_or_eq_of_mem_set hw with hw | hw
    · obtain ⟨k, hk, hd⟩ := h.worker m d hw
      exact ⟨k, (chunk_resolve n r m).trans hk, hd.mono fun j k hk => (chunk_resolve n r j).trans hk⟩
    · cases hw
  case refine_2.work i n c t c' hi ha =>
    intro m d hw
    rcases List.mem_or_eq_of_mem_set hw with hw | hw
    · obtain ⟨k, hk, hd⟩ := h.worker m d (ha.pool ▸ hw)
      exact ⟨k, ha.chunk hk, hd.mono fun m k hk => ha.chunk hk⟩
    · obtain ⟨rfl, rfl⟩ := Worker.working.inj hw
      obtain ⟨k, hk, hc⟩ := h.worker m c (List.mem_of_getElem? hi)
      exact ⟨k, ha.chunk hk, (hc.advance h.resolved ha).mono fun _ _ hk => hk⟩
  case refine_3.caller t c ha => exact ha.resolved h.resolved
  case refine_3.take i n k ts hi ht => exact h.resolved
  case refine_3.finish i n r hi =>
    intro m v hv
    replace hv : (s.resolve n r).ready m = some v := hv
    show ∃ k, (s.resolve n r).chunk m = some k ∧ _
    rw [chunk_resolve]
    rw [ready_resolve] at hv
    split_ifs at hv with hm
    · subst hm
      obtain ⟨k, hk, hperm, hsorted⟩ := h.worker m _ (List.mem_of_getElem? hi)
      obtain ⟨-, -, rfl⟩ := Option.map_eq_some_iff.mp hv
      exact ⟨k, hk, hperm, hsorted⟩
    · exact h.resolved m v hv
  case refine_3.work i n c t c' hi ha => exact ha.resolved h.resolved

end Sorter

/-! ## How many tasks are committed -/

/-- The elements that the thread is still going to take as pivots at its level or above. -/
def Call.toCommit : Call α → ℕ
  | .descend input _ => input.length
  | .ascend _ _ => 0

def Worker.toCommit : Worker α → ℕ
  | .idle => 0
  | .working _ c => c.toCommit

namespace Sorter

variable {s s' t : Sorter α} {c c' : Call α} {a : SortAction}

/-- The elements that no thread has taken as a pivot. -/
def toCommit (s : Sorter α) : ℕ :=
  s.caller.toCommit + (s.pool.map Worker.toCommit).sum + (s.tasks.map fun e => e.2.length).sum

theorem Advance.toCommit_eq (ha : Advance S s c t c') :
    t.committed.length + (t.tasks.map fun e => e.2.length).sum + c'.toCommit =
      s.committed.length + (s.tasks.map fun e => e.2.length).sum + c.toCommit := by
  cases ha with
  | bottom => rfl
  | @commit p xs fs =>
    have := S.length_lower_add p xs
    simp only [commit_committed, commit_tasks, List.length_append, List.map_append, List.map_singleton,
      List.sum_append, List.sum_singleton, Call.toCommit, List.length_cons, List.length_nil]
    omega
  | join => rfl

/-- A commit takes one element as the pivot. -/
theorem toCommit_step (hs : Step S s a s') :
    s'.committed.length + s'.toCommit = s.committed.length + s.toCommit := by
  cases hs with
  | @caller t c ha =>
    have := ha.toCommit_eq
    show t.committed.length + (c.toCommit + (t.pool.map _).sum + (t.tasks.map _).sum) = _
    rw [ha.pool]
    unfold toCommit
    omega
  | @take i n l ts hi ht =>
    have hp := sum_map_set Worker.toCommit hi (.working n (.descend l []))
    simp only [Worker.toCommit, Call.toCommit] at hp
    have hq : (s.tasks.map fun e => e.2.length).sum = l.length + (ts.map fun e => e.2.length).sum := by
      rw [ht, List.map_cons, List.sum_cons]
    show s.committed.length + (s.caller.toCommit + ((s.pool.set i _).map _).sum + (ts.map _).sum) = _
    unfold toCommit
    omega
  | @finish i n r hi =>
    have hp := sum_map_set Worker.toCommit hi .idle
    simp only [Worker.toCommit, Call.toCommit] at hp
    show (s.committed.modify n _).length +
      (s.caller.toCommit + ((s.pool.set i _).map _).sum + (s.tasks.map _).sum) = _
    unfold toCommit
    rw [List.length_modify]
    omega
  | @work i n c t c' hi ha =>
    have hp := sum_map_set Worker.toCommit hi (.working n c')
    simp only [Worker.toCommit] at hp
    have := ha.toCommit_eq
    show t.committed.length +
      (t.caller.toCommit + ((t.pool.set i _).map _).sum + (t.tasks.map _).sum) = _
    rw [ha.pool, ha.caller]
    unfold toCommit
    omega

/-- A frame of the caller or of a worker waits for task `n`. -/
def Awaited (s : Sorter α) (n : ℕ) : Prop :=
  (∃ f ∈ s.caller.frames, f.lower = n) ∨
    ∃ m c, .working m c ∈ s.pool ∧ ∃ f ∈ c.frames, f.lower = n

theorem Advance.awaited (ha : Advance S s c t c') {n : ℕ} (hu : t.unfinished n = true) :
    (∃ f ∈ c'.frames, f.lower = n) ∨
      s.unfinished n = true ∧ ((∃ f ∈ c.frames, f.lower = n) → ∃ f ∈ c'.frames, f.lower = n) := by
  cases ha with
  | bottom => exact .inr ⟨hu, id⟩
  | @commit p xs fs =>
    rw [unfinished_commit] at hu
    split_ifs at hu with hn
    · exact .inl ⟨_, List.mem_cons_self, hn.symm⟩
    · exact .inr ⟨hu, fun ⟨f, hf, hfn⟩ => ⟨f, List.mem_cons_of_mem _ hf, hfn⟩⟩
  | @join r f fs v hv =>
    refine .inr ⟨hu, fun ⟨e, he, hen⟩ => ?_⟩
    rcases List.mem_cons.mp he with rfl | he
    · -- the task whose result is taken has returned
      obtain ⟨k, hk, hkv⟩ := Option.bind_eq_some_iff.mp hv
      rw [unfinished, ← hen, hk] at hu
      simp [hkv] at hu
    · exact ⟨e, he, hen⟩

/-- Every task that has not returned is awaited. -/
theorem awaited_step (h : ∀ n, s.unfinished n = true → s.Awaited n) (hs : Step S s a s') :
    ∀ n, s'.unfinished n = true → s'.Awaited n := by
  intro n hu
  cases hs with
  | @caller t c ha =>
    rcases ha.awaited hu with hf | ⟨hu, hkeep⟩
    · exact .inl hf
    · rcases h n hu with hf | ⟨m, d, hd, hf⟩
      · exact .inl (hkeep hf)
      · exact .inr ⟨m, d, show _ ∈ t.pool from ha.pool ▸ hd, hf⟩
  | @take i k l ts hi ht =>
    rcases h n hu with hf | ⟨m, d, hd, hf⟩
    · exact .inl hf
    · exact .inr ⟨m, d, (eq_or_mem_set hi hd _).resolve_left nofun, hf⟩
  | @finish i k r hi =>
    have hu : (s.resolve k r).unfinished n = true := hu
    rw [unfinished_resolve] at hu
    split_ifs at hu
    rcases h n hu with hf | ⟨m, d, hd, hf⟩
    · exact .inl hf
    · refine .inr ⟨m, d, (eq_or_mem_set hi hd _).resolve_left ?_, hf⟩
      intro e
      obtain ⟨-, rfl⟩ := Worker.working.inj e
      obtain ⟨f, hf, -⟩ := hf
      cases hf
  | @work i k c t c' hi ha =>
    have hlt : i < t.pool.length := ha.pool ▸ (List.getElem?_eq_some_iff.mp hi).1
    have hmem : .working k c' ∈ t.pool.set i (.working k c') := List.mem_set hlt _
    rcases ha.awaited hu with hf | ⟨hu, hkeep⟩
    · exact .inr ⟨k, c', hmem, hf⟩
    · rcases h n hu with hf | ⟨m, d, hd, hf⟩
      · refine .inl ?_
        show ∃ f ∈ t.caller.frames, _
        rwa [ha.caller]
      · rcases eq_or_mem_set hi hd (.working k c') with e | hd
        · obtain ⟨rfl, rfl⟩ := Worker.working.inj e
          exact .inr ⟨m, c', hmem, hkeep hf⟩
        · exact .inr ⟨m, d, show _ ∈ t.pool.set i _ from ha.pool ▸ hd, hf⟩

/-- With the caller back, every task has returned. -/
theorem finished_of_awaited (hI : s.Inv) (h : ∀ n, s.unfinished n = true → s.Awaited n)
    (hc : s.caller.frames = []) (n : ℕ) : s.unfinished n = false := by
  -- a task is awaited by the task of a smaller number
  induction n using Nat.strongRecOn with
  | _ n ih =>
    by_contra hu
    rw [Bool.not_eq_false] at hu
    rcases h n hu with ⟨f, hf, -⟩ | ⟨m, d, hd, f, hf, rfl⟩
    · rw [hc] at hf
      cases hf
    · have hm := ih m (hI.younger m d hd f hf).1
      rw [hI.unfinished_of_working hd] at hm
      cases hm

theorem toCommit_eq_zero (hI : s.Inv) (hu : ∀ n, s.unfinished n = false)
    (hc : s.caller.toCommit = 0) : s.toCommit = 0 := by
  have hpool : (s.pool.map Worker.toCommit).sum = 0 := by
    refine List.sum_eq_zero fun x hx => ?_
    obtain ⟨w, hw, rfl⟩ := List.mem_map.mp hx
    cases w with
    | idle => rfl
    | working n c =>
      have := hI.unfinished_of_working hw
      rw [hu n] at this
      cases this
  have htasks : s.tasks = [] := by
    refine List.eq_nil_iff_forall_not_mem.mpr fun e he => ?_
    have := hI.unfinished_of_mem he
    rw [hu e.1] at this
    cases this
  rw [toCommit, hc, hpool, htasks]
  rfl

/-- What holds all along the sort of `input`. -/
structure Invariant (S : Sorting α) (input : List α) (s : Sorter α) : Prop where
  correct : s.Correct S input
  awaited : ∀ n, s.unfinished n = true → s.Awaited n
  count : s.committed.length + s.toCommit = input.length

theorem invariant_initial (S : Sorting α) (num : ℕ) (input : List α) :
    Invariant S input (initial num input) where
  correct := correct_initial S num input
  awaited n hu := by simp [initial, unfinished] at hu
  count := by simp [initial, toCommit, Call.toCommit, Worker.toCommit]

theorem Invariant.step [IsStrictWeakOrder α fun x y => S.lt x y = true] {input : List α}
    (h : s.Invariant S input) (hs : Step S s a s') : s'.Invariant S input where
  correct := h.correct.step hs
  awaited := awaited_step h.awaited hs
  count := (toCommit_step hs).trans h.count

theorem Invariant.returned {input r : List α} (h : s.Invariant S input)
    (hr : s.caller = .ascend r []) :
    r.Perm input ∧ S.Sorted r ∧ s.committed.length = input.length := by
  have hc : s.Sorts S input (.ascend r []) := hr ▸ h.correct.caller
  have hu := finished_of_awaited h.correct.inv h.awaited (by rw [hr]; rfl)
  have h0 := toCommit_eq_zero h.correct.inv hu (by rw [hr]; rfl)
  have := h.count
  exact ⟨hc.1, hc.2, by omega⟩

/-- The caller is back, or it can go on once every committed task has run. -/
theorem Invariant.returns {input : List α} (h : s.Invariant S input) (hs : s.step S .caller = none)
    (hrun : ∀ n < s.committed.length, ∃ v, s.ready n = some v) : ∃ r, s.caller = .ascend r [] := by
  have hadv : ∀ {t c}, ¬ Advance S s s.caller t c := by
    intro t c ha
    have hs' : s.step S .caller = some (t.setCaller c) := step_iff.mpr (.caller ha)
    rw [hs] at hs'
    cases hs'
  have hc := h.correct.caller
  generalize s.caller = c at hc hadv
  match c with
  | .ascend r [] => exact ⟨r, rfl⟩
  | .descend [] fs => exact absurd .bottom hadv
  | .descend (p :: xs) fs => exact absurd .commit hadv
  | .ascend r (f :: fs) =>
    obtain ⟨⟨k, hk, -⟩, -⟩ := hc
    obtain ⟨e, he, -⟩ := Option.map_eq_some_iff.mp hk
    obtain ⟨v, hv⟩ := hrun f.lower (List.getElem?_eq_some_iff.mp he).1
    exact absurd (.join hv) hadv

theorem length_add_work {num : ℕ} {input : List α} {as : List SortAction}
    (h : (sorter S num input).run s as = some s') : as.length + s'.work ≤ s.work := by
  induction as generalizing s with
  | nil =>
    obtain rfl := Option.some.inj h
    rw [List.length_nil, Nat.zero_add]
  | cons a as ih =>
    obtain ⟨t, ht, h⟩ := Option.bind_eq_some_iff.mp h
    have := ih h
    have := work_step (step_iff.mp ht)
    rw [List.length_cons]
    omega

theorem invariant_of_run [IsStrictWeakOrder α fun x y => S.lt x y = true] {num : ℕ} {input : List α}
    {as : List SortAction} (h : (sorter S num input).run (.initial num input) as = some s) :
    s.Invariant S input := by
  have hs : (sorter S num input).Reachable s := Machine.Reachable.run (.init rfl) h
  refine hs.invariant (P := Invariant S input) ?_ fun _ _ _ _ hI _ hs => hI.step (step_iff.mp hs)
  rintro _ rfl
  exact invariant_initial S num input

/-- Both recursive calls get strictly shorter lists. -/
theorem shorter {l l' : List α} {fs fs' : List (Frame α)}
    (h : s.advance S (.descend l fs) = some (t, .descend l' fs')) :
    l'.length < l.length ∧ ∃ k, t.committed = s.committed ++ [⟨k, none⟩] ∧ k.length < l.length := by
  cases advance_iff.mp h with
  | @commit p xs fs =>
    exact ⟨Sorting.length_higher_lt p xs, _, rfl, Sorting.length_lower_lt p xs⟩

end Sorter

/-- **The sort sorts.** In every run, a result of the call is a sorted permutation of the input, and by
then as many tasks have been committed as the input has elements. The caller is back as soon as it
cannot go on with every committed task run, no run is longer than the work at its start, and the
recursive calls are on strictly shorter lists. -/
theorem sort_correct (S : Sorting α) [IsStrictWeakOrder α fun x y => S.lt x y = true] (num : ℕ)
    (input : List α) (as : List SortAction) (s : Sorter α)
    (h : (sorter S num input).run (.initial num input) as = some s) :
    (∀ r, s.caller = .ascend r [] →
      r.Perm input ∧ S.Sorted r ∧ s.committed.length = input.length) ∧
    (s.step S .caller = none → (∀ n < s.committed.length, ∃ v, s.ready n = some v) →
      ∃ r, s.caller = .ascend r []) ∧
    as.length + s.work ≤ (Sorter.initial num input).work ∧
    ∀ l fs t l' fs', s.advance S (.descend l fs) = some (t, .descend l' fs') →
      l'.length < l.length ∧
        ∃ k, t.committed = s.committed ++ [⟨k, none⟩] ∧ k.length < l.length :=
  have hI := Sorter.invariant_of_run h
  ⟨fun _ hr => hI.returned hr, hI.returns, Sorter.length_add_work h,
    fun _ _ _ _ _ h => Sorter.shorter h⟩

/-- A list with two equal elements, sorted on two workers. -/
theorem sort_correct_three : ∃ (S : Sorting ℕ) (s : Sorter ℕ), s.caller = .ascend [1, 2, 2] [] ∧
    [1, 2, 2].Perm [2, 1, 2] ∧ S.Sorted [1, 2, 2] ∧ s.committed.length = 3 := by
  have hS : IsStrictWeakOrder ℕ fun x y =>
      (Sorting.stable fun x y : ℕ => decide (x < y)).lt x y = true := by
    simp only [Sorting.stable, decide_eq_true_eq]
    exact { irrefl := Nat.lt_irrefl, trans := fun _ _ _ => Nat.lt_trans,
            incomp_trans := by intros; omega }
  obtain ⟨s, hs, hr⟩ : ∃ s, (sorter (.stable fun x y : ℕ => x < y) 2 [2, 1, 2]).run
      (.initial 2 [2, 1, 2]) [.caller, .caller, .caller, .worker 0, .worker 0, .worker 0, .worker 1,
        .worker 1, .worker 1, .worker 1, .worker 1, .worker 1, .worker 0, .worker 0, .caller,
        .caller] = some s ∧ s.caller = .ascend [1, 2, 2] [] :=
    ⟨_, rfl, rfl⟩
  exact ⟨_, s, hr, (sort_correct (.stable fun x y : ℕ => x < y) 2 [2, 1, 2] _ s hs).1 _ hr⟩

end SelfStudy.Pool
