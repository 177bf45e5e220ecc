import SelfStudy.Iocp.Stages

/-!
# The accesses to `g_ThreadHandles`

The array has `MAX_WORKER_THREAD` entries, and `main` runs over it up to `dwThreadCount`, which it
computes from the number of processors. Here the number is any `DWORD`, and so is its double; the
accesses of a run of the process are written down with their index, and the wait with its count.

An access outside the array ends what the model says of the run: the write it stands for goes to the
globals behind the array. The accesses up to there, and that one itself, are those of the source.
-/

namespace SelfStudy.Iocp

open Lib

/-- A read or write of the entry `i`, or `WaitForMultipleObjects` with its first argument. -/
inductive HandlesAccess
  | entry (i : ℕ)
  | wait (nCount : ℕ)
  deriving DecidableEq, Repr

/-- The access stays within the array. -/
def HandlesAccess.InBounds : HandlesAccess → Prop
  | .entry i => i < maxWorkerThread
  | .wait nCount => nCount ≤ maxWorkerThread

/-- What an access is, by the thread count. -/
def HandlesAccess.Within (dwThreadCount : ℕ) : HandlesAccess → Prop
  | .entry i => i < dwThreadCount
  | .wait nCount => nCount = dwThreadCount

theorem HandlesAccess.Within.inBounds {x : HandlesAccess} {dwThreadCount : ℕ}
    (h : x.Within dwThreadCount) (hc : dwThreadCount ≤ maxWorkerThread) : x.InBounds := by
  cases x with
  | entry i => exact Nat.lt_of_lt_of_le h hc
  | wait nCount => exact Eq.trans_le h hc

namespace RestartLoop

/-- The process on a machine with this many processors. -/
def process (dwNumberOfProcessors : UInt32) : Machine RestartLoop LoopAction where
  init s := s = initial dwNumberOfProcessors
  step := step

/-- The access of a step of `main`. -/
def mainAccess (s : RestartLoop) : LoopPc → LoopAnswer → Option HandlesAccess
  | .createThread dwCPU, .call ok =>
    if dwCPU < s.dwThreadCount && ok then some (.entry dwCPU) else none
  | .rest .waitThreads, .wait _ => some (.wait s.dwThreadCount)
  | .closeThreads i, .none => if i < s.dwThreadCount then some (.entry i) else none
  | _, _ => none

/-- The access of a step. The other threads have none. -/
def access (s : RestartLoop) : LoopAction → Option HandlesAccess
  | .main ans => s.mainAccess s.pc ans
  | _ => none

/-- The accesses before `CtrlHandler` is registered: the assignment to the first entry, and the loop. -/
def initAccesses : List HandlesAccess :=
  .entry 0 :: (List.range maxWorkerThread).map .entry

/-- The accesses of a run. -/
def accesses (dwNumberOfProcessors : UInt32) (as : List LoopAction) : List HandlesAccess :=
  initAccesses ++ (process dwNumberOfProcessors).record access (initial dwNumberOfProcessors) as

variable {s s' : RestartLoop} {a : LoopAction} {n : UInt32} {x : HandlesAccess}

theorem inBounds_initAccesses (h : x ∈ initAccesses) : x.InBounds := by
  rcases List.mem_cons.mp h with rfl | h
  · show 0 < maxWorkerThread
    decide
  · obtain ⟨i, hi, rfl⟩ := List.mem_map.mp h
    exact List.mem_range.mp hi

theorem within_mainAccess {pc : LoopPc} {ans : LoopAnswer} (h : s.mainAccess pc ans = some x) :
    x.Within s.dwThreadCount := by
  unfold mainAccess at h
  split at h
  · obtain ⟨hk, h⟩ := Option.ite_none_right_eq_some.mp h
    obtain rfl := Option.some.inj h
    show (_ : ℕ) < s.dwThreadCount
    exact of_decide_eq_true ((Bool.and_eq_true _ _).mp hk).1
  · obtain rfl := Option.some.inj h
    rfl
  · obtain ⟨hi, h⟩ := Option.ite_none_right_eq_some.mp h
    obtain rfl := Option.some.inj h
    exact hi
  · cases h

theorem within_access (h : s.access a = some x) : x.Within s.dwThreadCount := by
  cases a with
  | main ans => exact within_mainAccess h
  | _ => cases h

/-- The accesses of a run follow the thread count, once the array is initialised. -/
theorem within_accesses {as : List LoopAction} (hx : x ∈ accesses n as) :
    x ∈ initAccesses ∨ x.Within (n * 2).toNat := by
  refine (List.mem_append.mp hx).imp_right fun hx => ?_
  have hstep : ∀ s a s' l, (s.dwThreadCount = (n * 2).toNat ∧ ∀ x ∈ l, x.Within (n * 2).toNat) →
      (process n).step s a = some s' → s'.dwThreadCount = (n * 2).toNat ∧
        ∀ x ∈ l ++ (s.access a).toList, x.Within (n * 2).toNat := by
    rintro s a s' l ⟨hcount, hl⟩ hs
    refine ⟨(step_cases hs).dwThreadCount.trans hcount, fun x hx => ?_⟩
    rcases List.mem_append.mp hx with hx | hx
    · exact hl x hx
    · exact hcount ▸ within_access (Option.mem_toList.mp hx)
  obtain ⟨-, -, h⟩ := Machine.record_invariant (s := initial n) (l := []) hstep
    ⟨rfl, fun x h => absurd h List.not_mem_nil⟩ as
  exact h x hx

/-! ## The bound -/

theorem inBounds_accesses {as : List LoopAction} (hn : (n * 2).toNat ≤ maxWorkerThread) :
    ∀ x ∈ accesses n as, x.InBounds := by
  intro x hx
  rcases within_accesses hx with hx | hx
  · exact inBounds_initAccesses hx
  · exact hx.inBounds hn

/-- A run that stays within the array has come to the wait with a count that does. -/
theorem le_of_inBounds {as : List LoopAction} {nCount : ℕ} (hw : .wait nCount ∈ accesses n as)
    (h : ∀ x ∈ accesses n as, x.InBounds) : (n * 2).toNat ≤ maxWorkerThread := by
  have hcount : nCount = (n * 2).toNat := by
    refine (within_accesses hw).resolve_left fun hi => ?_
    simp [initAccesses] at hi
  exact hcount ▸ h _ hw

/-- A startup in which not even the completion port can be created, up to the wait. -/
def portFails : List LoopAction :=
  [.main (.call true), .main (.call true), .main .none, .main .none, .main .none, .main .none,
    .main (.call false), .main .none, .main .none, .main (.wait .failed)]

theorem wait_mem_portFails (n : UInt32) : .wait (n * 2).toNat ∈ accesses n portFails :=
  List.mem_append_right _ (List.mem_singleton.mpr rfl)

/-- **The bound of the array.** The accesses of all runs stay within `g_ThreadHandles` exactly if twice
the number of processors, computed in 32 bits, is at most `MAX_WORKER_THREAD`; and that decides every
single run that gets as far as the wait, wherever `CreateThread` may have failed in it. -/
theorem handles_in_bounds_iff (n : UInt32) :
    ((∀ as, ∀ x ∈ accesses n as, x.InBounds) ↔ (n * 2).toNat ≤ maxWorkerThread) ∧
    ∀ as nCount, .wait nCount ∈ accesses n as →
      ((∀ x ∈ accesses n as, x.InBounds) ↔ (n * 2).toNat ≤ maxWorkerThread) := by
  refine ⟨⟨fun h => ?_, fun hn as => inBounds_accesses hn⟩, fun as nCount hw => ?_⟩
  · exact le_of_inBounds (wait_mem_portFails n) (h portFails)
  · exact ⟨le_of_inBounds hw, inBounds_accesses⟩

/-- With nine processors `main` writes the handle of the seventeenth worker behind the array. -/
theorem handles_overflow : .entry 16 ∈ accesses 9 (startupRun 9) ∧
    ¬ ∀ n as, ∀ x ∈ accesses n as, x.InBounds := by
  have h : .entry 16 ∈ accesses 9 (startupRun 9) := by decide
  refine ⟨h, fun hall => ?_⟩
  exact absurd (hall 9 _ _ h) (Nat.lt_irrefl 16)

end RestartLoop

end SelfStudy.Iocp
