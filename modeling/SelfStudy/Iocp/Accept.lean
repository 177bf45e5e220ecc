import SelfStudy.Iocp.Ownership

/-!
# One AcceptEx is always posted

While the server is in service one AcceptEx is outstanding, or queued, or in the hands of a worker
that is about to post the next one: every exit of the `ClientIoAccept` case either goes through
`CreateAcceptSocket` or sets the cleanup event.

`CreateAcceptSocket` takes a failed AcceptEx for a posted one, since it compares the `BOOL` with
`SOCKET_ERROR`. So the count holds all along a run exactly if no AcceptEx of the run fails
(`accept_posted_iff`).
-/

namespace SelfStudy.Iocp

open Lib

namespace Server

/-- `CreateAcceptSocket(TRUE)` has returned TRUE, and neither the cleanup event nor `g_bEndServer`
is set. -/
def InService (s : Server) : Prop :=
  s.main = .wait ∧ s.y.cleanupEvent = false ∧ s.y.g.bEndServer = false

/-- If the step is a call of AcceptEx by a server that is not shutting down, then the call returns
TRUE or fails with `ERROR_IO_PENDING`. -/
def AcceptExStarts (s : Server) : Action → Prop
  | .main (.overlapped r) => s.main = .acceptEx → s.y.cleanupEvent = false →
    s.y.g.bEndServer = false → r.starts = true
  | .worker i (.overlapped r) => s.workers[i]? = some .acceptEx → s.y.cleanupEvent = false →
    s.y.g.bEndServer = false → r.starts = true
  | _ => True

/-- The invariant of the runs in which AcceptEx does not fail. -/
structure Accepting (s : Server) : Prop where
  inv : Inv s
  served : s.main.startup = false → s.main = .wait ∨ s.y.g.bEndServer = true
  posted : s.InService → s.accepts = 1

variable {s s' : Server} {i : ℕ} {a : Action}

/-! ## The cleanup event -/

theorem start_cleanupEvent (y : Shared) (sd : Option Socket) (a : Addr) (c : Call) (r : CallResult) :
    (y.start sd a c r).cleanupEvent = y.cleanupEvent := by
  unfold Shared.start
  split_ifs <;> rfl

theorem associate_cleanupEvent {y y' : Shared} {sd : Option Socket} {a : Addr} {ok : Bool}
    (h : y.associate sd a ok = some y') : y'.cleanupEvent = y.cleanupEvent := by
  cases ok with
  | true =>
    obtain ⟨-, _, -, -, rfl⟩ := Shared.associate_true h
    rfl
  | false =>
    obtain ⟨-, rfl⟩ := Shared.associate_false h
    rfl

theorem createAccept_cleanupEvent {y y' : Shared} {ok : Bool} (h : y.createAccept ok = some y') :
    y'.cleanupEvent = y.cleanupEvent := by
  obtain ⟨a, -, -, -, rfl⟩ := Shared.createAccept_cases h
  rfl

theorem acceptEx_cleanupEvent {y y' : Shared} {r : CallResult} (h : y.acceptEx r = some y') :
    y'.cleanupEvent = y.cleanupEvent := by
  obtain ⟨a, -, -, -, rfl⟩ := Shared.acceptEx_cases h
  exact start_cleanupEvent ..

/-- No worker resets the cleanup event. -/
theorem cleanupEvent_mono {v : Bool} {y y' : Shared} {pc pc' : WorkerPc}
    (h : WorkerStep v y pc y' pc') (hev : y'.cleanupEvent = false) : y.cleanupEvent = false := by
  cases h with
  | posted | acceptPosted =>
    rw [start_cleanupEvent] at hev
    exact hev
  | associated h | associateFailed h => exact (associate_cleanupEvent h).symm.trans hev
  | created h | createFailed h => exact (createAccept_cleanupEvent h).symm.trans hev
  | acceptEx h => exact (acceptEx_cleanupEvent h).symm.trans hev
  | setEvent => cases hev
  | _ => exact hev

/-! ## The steps -/

/-- A call of AcceptEx that starts nothing leaves everything as it was. -/
theorem acceptEx_cases {y y' : Shared} {r : CallResult} (h : y.acceptEx r = some y')
    (hL : ∃ k, y.Listening k) : r.starts = false ∧ y' = y ∨
      r.starts = true ∧ ∃ op, y'.outstanding = y.outstanding ++ [op] ∧ y'.port = y.port ∧
        op.isAccept = true := by
  obtain ⟨k, hL⟩ := hL
  obtain ⟨-, -, hp, ho⟩ := Shared.acceptEx_spec h hL
  cases hr : r.starts with
  | false =>
    rw [hr] at ho
    exact .inl ⟨rfl, ho⟩
  | true =>
    rw [hr] at ho
    obtain ⟨op, ho, hacc, -⟩ := ho
    exact .inr ⟨rfl, op, ho, hp, hacc⟩

/-- The step of a worker that calls AcceptEx. -/
theorem acceptEx_of_step {v : Bool} {y : Shared} {ans : Answer} {q : Shared × WorkerPc}
    (h : WorkerPc.step v y .acceptEx ans = some q) :
    ∃ r, ans = .overlapped r ∧ y.acceptEx r = some q.1 ∧ q.2 = .getStatus := by
  cases ans with
  | overlapped r =>
    obtain ⟨y', hy', rfl⟩ := Option.map_eq_some_iff.mp h
    rw [CallResult.failed_bool]
    exact ⟨r, rfl, hy', rfl⟩
  | _ => cases h

theorem Accepting.worker {ans : Answer} (h : Accepting s) (hs : s.step (.worker i ans) = some s')
    (hC : s.AcceptExStarts (.worker i ans)) : Accepting s' := by
  have hinv := h.inv.step hs
  obtain ⟨pc, hi, hs⟩ := Option.bind_eq_some_iff.mp hs
  obtain ⟨q, hq, rfl⟩ := Option.map_eq_some_iff.mp hs
  have hstep := WorkerPc.step_cases hq
  have hpc := h.inv.workers pc (List.mem_of_getElem? hi)
  have E := Shared.effect_worker hstep hpc h.inv.port
  refine ⟨hinv, fun hst => ?_, fun hserv => ?_⟩
  · exact (h.served hst).imp id E.bEndServer.trans
  · obtain ⟨hm, hev, hend⟩ := hserv
    have hend' : s.y.g.bEndServer = false := E.bEndServer.symm.trans hend
    have hev' := cleanupEvent_mono hstep hev
    have hone := h.posted ⟨hm, hev', hend'⟩
    have hset := accepts_set hi q.1 q.2
    rcases E.accepts with ha | ⟨-, he | he | ⟨rfl, hy⟩⟩
    · show accepts { s with y := q.1, workers := s.workers.set i q.2 } = 1
      omega
    · rw [hend'] at he
      cases he
    · rw [show q.1.cleanupEvent = false from hev] at he
      cases he
    · -- AcceptEx has started an operation, and has not left the state as it was
      obtain ⟨r, rfl, hacc, -⟩ := acceptEx_of_step hq
      rcases acceptEx_cases hacc hpc with ⟨hr, -⟩ | ⟨-, op, ho, -⟩
      · rw [hC hi hev' hend'] at hr
        cases hr
      · rw [hy] at ho
        simp at ho

/-- The steps of `main`: in the startup, to the finally block, within it, or into service. -/
theorem main_service {n : ℕ} {y y' : Shared} {pc pc' : MainPc} {ans : Answer}
    {ws : List WorkerPc} (h : MainStep n y pc ans y' pc' ws) :
    pc'.startup = true ∨ y'.g.bEndServer = true ∨
      (pc.startup = false ∧ pc ≠ .wait ∧ y'.g = y.g ∧ pc' ≠ .wait) ∨
      ∃ r, pc = .acceptEx ∧ ans = .overlapped r ∧ y.acceptEx r = some y' ∧ pc' = .wait ∧ ws = [] := by
  cases h with
  | portFailed | threadFailed | resolveFailed | listenFailed | bindFailed | noMemory
  | associateFailed | ioctlFailed | createFailed | waited => exact .inr (.inl rfl)
  | acceptEx hc => exact .inr (.inr (.inr ⟨_, rfl, rfl, hc, rfl, rfl⟩))
  | cleanup =>
    refine .inr (.inr (.inl ⟨rfl, by decide, rfl, ?_⟩))
    split_ifs <;> decide
  | quitPosted | quitLost | quitsPosted =>
    exact .inr (.inr (.inl ⟨rfl, by simp, rfl, by simp⟩))
  | _ => exact .inl rfl

/-- During the startup no worker has the listening context. -/
theorem Inv.accepting_startup (h : Inv s) (hst : s.main.startup = true) :
    s.workers.countP WorkerPc.accepting = 0 := by
  refine List.countP_eq_zero.mpr fun pc hpc => ?_
  simp [(h.startup hst).2 pc hpc, WorkerPc.accepting]

theorem Inv.accepts_startup (h : Inv s) (hst : s.main.startup = true) : s.accepts = 0 := by
  obtain ⟨hS, -⟩ := h.startup hst
  simp [accepts, Shared.load, h.accepting_startup hst, hS.port, hS.nothing hst]

theorem Accepting.main {ans : Answer} (h : Accepting s) (hs : s.step (.main ans) = some s')
    (hC : s.AcceptExStarts (.main ans)) : Accepting s' := by
  have hinv := h.inv.step hs
  obtain ⟨⟨q, ws⟩, hq, rfl⟩ := Option.map_eq_some_iff.mp hs
  rcases main_service (MainPc.step_cases hq) with
    hst | hend | ⟨hst, hne, hg, hw⟩ | ⟨r, hm, rfl, hacc, hw, rfl⟩
  · refine ⟨hinv, fun hf => ?_, fun hserv => ?_⟩
    · rw [show q.2.startup = false from hf] at hst
      cases hst
    · rw [show q.2 = .wait from hserv.1] at hst
      cases hst
  · refine ⟨hinv, fun _ => .inr hend, fun hserv => ?_⟩
    rw [show q.1.g.bEndServer = false from hserv.2.2] at hend
    cases hend
  · refine ⟨hinv, fun _ => .inr ?_, fun hserv => absurd hserv.1 hw⟩
    show q.1.g.bEndServer = true
    rw [hg]
    exact (h.served hst).resolve_left hne
  · refine ⟨hinv, fun _ => .inl hw, fun hserv => ?_⟩
    obtain ⟨-, hev, hend⟩ := hserv
    have hst : s.main.startup = true := by rw [hm]; rfl
    have hS := (h.inv.startup hst).1
    obtain ⟨k, hL⟩ : ∃ k, s.y.Listening k := Shared.MainOk.listening (h.inv.mainOk hm rfl) hacc
    have hr : r.starts = true := hC hm ((acceptEx_cleanupEvent hacc).symm.trans hev)
      ((Shared.acceptEx_spec hacc hL).1.bEndServer.symm.trans hend)
    rcases acceptEx_cases hacc ⟨k, hL⟩ with ⟨hf, -⟩ | ⟨-, op, ho, hp, hop⟩
    · rw [hr] at hf
      cases hf
    · show accepts { s with y := q.1, workers := s.workers ++ [] } = 1
      have hw := h.inv.accepting_startup hst
      have hout := hS.nothing hst
      rw [accepts, List.append_nil, hw, Shared.load, ho, hp, hS.port, hout]
      simp [hop]

theorem accepting_initial (n : ℕ) (v : Bool) : Accepting (initial n v) := by
  refine ⟨inv_initial n v, fun hst => ?_, fun hserv => ?_⟩
  · cases hst
  · cases hserv.1

theorem Accepting.step (h : Accepting s) (hs : s.step a = some s') (hC : s.AcceptExStarts a) :
    Accepting s' := by
  cases a with
  | worker i ans => exact h.worker hs hC
  | main ans => exact h.main hs hC
  | complete i t ok =>
    have hinv := h.inv.step hs
    obtain ⟨y', hy', rfl⟩ := Option.map_eq_some_iff.mp hs
    obtain ⟨op, -, -, -, -, -, W, hev⟩ := complete_spec hy' h.inv.ops
    refine ⟨hinv, fun hst => ?_, fun hserv => ?_⟩
    · exact (h.served hst).imp id W.bEndServer.trans
    · have hone := h.posted ⟨hserv.1, hev.symm.trans hserv.2.1,
        W.bEndServer.symm.trans hserv.2.2⟩
      rw [accepts, complete_load hy' h.inv.ops]
      exact hone
  | ctrlEnd =>
    have hinv := h.inv.step hs
    cases step_cases hs with
    | ctrlEnd => exact ⟨hinv, fun _ => .inr rfl, fun hserv => by cases hserv.2.2⟩
  | ctrlEvent =>
    have hinv := h.inv.step hs
    cases step_cases hs with
    | ctrlEvent => exact ⟨hinv, h.served, fun hserv => by cases hserv.2.1⟩

theorem Accepting.starts_main {r : CallResult} (h : Accepting s)
    (hs : s.step (.main (.overlapped r)) = some s') (hp : s'.InService → s'.accepts = 1) :
    s.AcceptExStarts (.main (.overlapped r)) := by
  intro hm hev hend
  by_contra hr
  have hst : s.main.startup = true := by rw [hm]; rfl
  have hmain : s.y.MainOk .acceptEx := h.inv.mainOk hm rfl
  have hzero := h.inv.accepts_startup hst
  obtain ⟨⟨⟨y', pc'⟩, ws⟩, hq, rfl⟩ := Option.map_eq_some_iff.mp hs
  rw [hm] at hq
  obtain ⟨hacc, hw, rfl⟩ : s.y.acceptEx r = some y' ∧ pc' = .wait ∧ ws = [] := by
    cases MainPc.step_cases hq with
    | acceptEx hc => exact ⟨hc, rfl, rfl⟩
  rcases acceptEx_cases hacc (Shared.MainOk.listening hmain hacc) with ⟨-, hy⟩ | ⟨hst, -⟩
  · have hev' : y'.cleanupEvent = false := by rw [hy]; exact hev
    have hend' : y'.g.bEndServer = false := by rw [hy]; exact hend
    have hone : accepts { s with y := y', main := pc', workers := s.workers ++ [] } = 1 :=
      hp ⟨hw, hev', hend'⟩
    rw [List.append_nil, hy, show accepts { s with main := pc' } = s.accepts from rfl] at hone
    omega
  · exact hr hst

theorem Accepting.starts_worker {i : ℕ} {r : CallResult} (h : Accepting s)
    (hs : s.step (.worker i (.overlapped r)) = some s') (hp : s'.InService → s'.accepts = 1) :
    s.AcceptExStarts (.worker i (.overlapped r)) := by
  intro hi hev hend
  by_contra hr
  obtain ⟨pc, hi', hs⟩ := Option.bind_eq_some_iff.mp hs
  obtain rfl := Option.some.inj (hi'.symm.trans hi)
  obtain ⟨q, hq, rfl⟩ := Option.map_eq_some_iff.mp hs
  obtain ⟨r', hr', hacc, hpc'⟩ := acceptEx_of_step hq
  cases hr'
  rcases acceptEx_cases hacc (h.inv.workers _ (List.mem_of_getElem? hi)) with ⟨-, hy⟩ | ⟨hst, -⟩
  · -- the worker was the only keeper, and drops what it kept
    have hst := h.inv.worker_startup hi (WorkerPc.step_cases hq)
    have hm : s.main = .wait := (h.served hst).resolve_right (by simp [hend])
    have hone := h.posted ⟨hm, hev, hend⟩
    have hset := accepts_set hi q.1 q.2
    have hev' : q.1.cleanupEvent = false := by rw [hy]; exact hev
    have hend' : q.1.g.bEndServer = false := by rw [hy]; exact hend
    have hone' : accepts { s with y := q.1, workers := s.workers.set i q.2 } = 1 :=
      hp ⟨hm, hev', hend'⟩
    rw [hone', hone, hy, hpc'] at hset
    simp [Shared.totalAccepts, WorkerPc.accepting] at hset
  · exact hr hst

/-- An AcceptEx that fails in service leaves none posted. -/
theorem Accepting.starts (h : Accepting s) (hs : s.step a = some s')
    (hp : s'.InService → s'.accepts = 1) : s.AcceptExStarts a := by
  cases a with
  | main ans =>
    cases ans with
    | overlapped r => exact h.starts_main hs hp
    | _ => trivial
  | worker i ans =>
    cases ans with
    | overlapped r => exact h.starts_worker hs hp
    | _ => trivial
  | complete | ctrlEnd | ctrlEvent => trivial

/-- **AcceptEx is always posted, exactly if it never fails.** All along a run from the start, in
service there is one AcceptEx posted or about to be posted, exactly if every AcceptEx that is called
before the shutdown starts an operation. -/
theorem accept_posted_iff (dwThreadCount : ℕ) (bVerbose : Bool) (actions : List Action) :
    machine.Always (fun s => s.InService → s.accepts = 1) (initial dwThreadCount bVerbose) actions ↔
      machine.AllSteps AcceptExStarts (initial dwThreadCount bVerbose) actions :=
  Machine.always_iff_allSteps (fun _ h => h.posted) (fun _ _ _ h hs hC => h.step hs hC)
    (fun _ _ _ h hs hp => h.starts hs hp) (accepting_initial dwThreadCount bVerbose) actions

/-- AcceptEx fails with `WSAENOBUFS`, in `main` or when a worker posts the next one: the server waits
for the cleanup event and accepts nobody. -/
theorem accept_lost :
    (∃ s, machine.run (initial 1 false) (startup (.error 10055)) = some s ∧ s.InService ∧
      s.accepts = 0) ∧
    ∃ s, machine.run (initial 1 false) (startup .success ++
      [.complete 0 (.data [65] []) true, .worker 0 (.packet 0), .worker 0 .none, .worker 0 .none,
        .worker 0 (.call true), .worker 0 (.heap (.ok 1)), .worker 0 (.call true), .worker 0 .none,
        .worker 0 .none, .worker 0 (.overlapped .success), .worker 0 (.call true),
        .worker 0 (.overlapped (.error 10055))]) = some s ∧ s.InService ∧ s.accepts = 0 :=
  ⟨⟨_, rfl, ⟨rfl, rfl, rfl⟩, rfl⟩, ⟨_, rfl, ⟨rfl, rfl, rfl⟩, rfl⟩⟩

end Server

end SelfStudy.Iocp
