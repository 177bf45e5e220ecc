import SelfStudy.Iocp.FinallyBlock
import SelfStudy.Iocp.Ownership

/-!
# The finally block

`main` from its entry into the finally block to the end of it, while the workers, the completions and
`CtrlHandler` go on: the server at `cleanup`, followed by the part of the block behind the loop that
posts the quit packets.

`Covered` says that the quit packets queued or still to be posted suffice for the workers that have
not returned. A worker takes a quit packet only to return, so every step keeps it but one: the test
of `g_hIOCP`, when an association has failed since `main` entered the block and has taken the handle
of the port with it. Then no packet is posted (`quits_cover_iff`).
-/

namespace SelfStudy.Iocp

open Lib Globals

/-! ## The rest of the block -/

/-- One step of `main` there. The wait succeeds only if `dwThreadCount` threads were created and all
have returned. -/
def FinallyPc.step (dwThreadCount : ℕ) (workers : List WorkerPc) (mainOwns : Bool) (y : Shared) :
    FinallyPc → Answer → Option (Shared × FinallyPc)
  | .waitThreads, .call ok =>
    if ok = true → workers.length = dwThreadCount ∧ ∀ pc ∈ workers, pc = .returned then
      some (y, .closeListen)
    else none
  | pc, .none => (pc.clean mainOwns y.g).map fun q => (y.setG q.1, q.2)
  | _, _ => none

theorem FinallyPc.step_cases {n : ℕ} {ws : List WorkerPc} {o : Bool} {y : Shared} {pc : FinallyPc}
    {ans : Answer} {q : Shared × FinallyPc} (h : pc.step n ws o y ans = some q) :
    (pc = .waitThreads ∧ q = (y, .closeListen)) ∨
      ∃ p, pc.clean o y.g = some p ∧ q = (y.setG p.1, p.2) := by
  unfold FinallyPc.step at h
  split at h
  · obtain ⟨-, h⟩ := Option.ite_none_right_eq_some.mp h
    exact .inl ⟨rfl, (Option.some.inj h).symm⟩
  · obtain ⟨p, hp, rfl⟩ := Option.map_eq_some_iff.mp h
    exact .inr ⟨p, hp, rfl⟩
  · cases h

/-- The server with `main` in its finally block. Where `g_CriticalSection` is held, `mainOwns` says
that it is `main` that holds it, which it does after a `CtxtAllocate` of its own without memory. -/
structure Finally where
  server : Server
  rest : FinallyPc
  mainOwns : Bool

inductive FinallyAction
  | server (a : Action)
  | main (ans : Answer)
  deriving DecidableEq, Repr

/-- `main` in the finally block, up to its call of WaitForMultipleObjects. -/
def MainPc.inFinally : MainPc → Bool
  | .cleanup | .postQuit _ | .join => true
  | _ => false

/-- The worker is about to dequeue, has just dequeued, or has returned. -/
def WorkerPc.late : WorkerPc → Bool
  | .getStatus | .testEnd .. | .returned => true
  | _ => false

namespace Finally

/-- `main` has entered the block with a port. -/
structure Entry (s : Finally) : Prop where
  main : s.server.main = .cleanup
  rest : s.rest = .waitThreads
  hIocp : s.server.y.g.hIocp = true
  bEndServer : s.server.y.g.bEndServer = true
  workers : s.server.workers.length ≤ s.server.dwThreadCount

def step (s : Finally) : FinallyAction → Option Finally
  | .server a =>
    if s.rest = .finished then none
    else (s.server.step a).map fun server =>
      { s with
        server := server
        mainOwns := s.mainOwns && s.server.y.g.criticalSection != 0 }
  | .main ans =>
    if s.server.main = .join then
      (s.rest.step s.server.dwThreadCount s.server.workers s.mainOwns s.server.y ans).map
        fun (y, rest) => ⟨{ s.server with y := y }, rest, s.mainOwns || s.rest == .ctxtListFree⟩
    else none

/-- The finally block, with the workers wherever they are. -/
def machine : Machine Finally FinallyAction where
  init := Entry
  step := step

variable (s : Finally)

/-- The quit packets that `main` has not posted yet. -/
def toPost : ℕ :=
  match s.server.main with
  | .cleanup => s.server.dwThreadCount
  | .postQuit i => s.server.dwThreadCount - i
  | _ => 0

/-- The quit packets that no worker has dequeued. -/
def quits : ℕ := s.server.y.port.countP (· == .quit)

/-- The workers that have not returned. -/
def unreturned : ℕ := s.server.workers.countP (· != .returned)

def Covered : Prop := s.unreturned ≤ s.toPost + s.quits

/-- From here on the worker `i` neither posts nor touches a context. -/
def Idle (i : ℕ) : Prop := ∀ t, machine.Leads s t → ∀ ans t',
  t.step (.server (.worker i ans)) = some t' →
    t'.server.y.outstanding = t.server.y.outstanding ∧ t'.server.y.g = t.server.y.g

/-- The quit packets suffice, no worker is left at a port without one, and what is dequeued from here
on is not handled. -/
structure Quits : Prop where
  covered : s.Covered
  served : s.toPost = 0 → (∃ pc ∈ s.server.workers, pc ≠ .returned) → .quit ∈ s.server.y.port
  idle : ∀ i : ℕ, s.server.workers[i]? = some .getStatus → s.Idle i

/-- The posts of `main` succeed. -/
def PostSucceeds : FinallyAction → Prop
  | .server (.main (.call ok)) => ∀ i < s.server.dwThreadCount, s.server.main = .postQuit i →
    ok = true ∧ s.server.y.g.hIocp = true
  | _ => True

/-- The test of `g_hIOCP` finds the port, or there is nobody to post to. -/
def FindsPort : FinallyAction → Prop
  | .server (.main _) => s.server.main = .cleanup →
    s.server.y.g.hIocp = true ∨ s.unreturned ≤ s.quits
  | _ => True

variable {s} {t : Finally} {a : FinallyAction} {b : Action}

/-! ## The steps -/

/-- A worker leaves `g_bEndServer` as it is, and takes from the port at the dequeue only. -/
theorem worker_frame {v : Bool} {y y' : Shared} {pc pc' : WorkerPc}
    (h : WorkerStep v y pc y' pc') :
    y'.g.bEndServer = y.g.bEndServer ∧ (pc ≠ .getStatus → y'.port = y.port) := by
  cases h with
  | posted | acceptPosted =>
    exact ⟨(Shared.within_start _ _ _ _).bEndServer, fun _ => Shared.start_port _ _ _ _⟩
  | closed _ hc | acceptClosed _ hc => exact ⟨(closeClient_spec hc).1.bEndServer, fun _ => rfl⟩
  | allocated => exact ⟨(ctxtAllocate_globals _ _ _ _).2.2.2, fun _ => rfl⟩
  | associated hc =>
    obtain ⟨-, _, -, -, rfl⟩ := Shared.associate_true hc
    exact ⟨rfl, fun _ => rfl⟩
  | associateFailed hc =>
    obtain ⟨-, rfl⟩ := Shared.associate_false hc
    exact ⟨rfl, fun _ => rfl⟩
  | added => exact ⟨(within_ctxtListAddTo _ none).bEndServer, fun _ => rfl⟩
  | created hc | createFailed hc =>
    obtain ⟨k, -, W, hp⟩ := Shared.within_createAccept hc
    exact ⟨W.bEndServer, fun _ => hp⟩
  | acceptEx hc =>
    obtain ⟨k, -, W, hp⟩ := Shared.within_acceptEx hc
    exact ⟨W.bEndServer, fun _ => hp⟩
  | quit | dequeue => exact ⟨rfl, fun hpc => absurd rfl hpc⟩
  | _ => exact ⟨rfl, fun _ => rfl⟩

/-- A worker takes a quit packet only to return. -/
theorem quits_worker {v : Bool} {y y' : Shared} {pc pc' : WorkerPc}
    (h : WorkerStep v y pc y' pc') :
    y.port.countP (· == .quit) + (if pc' != .returned then 1 else 0) ≤
      y'.port.countP (· == .quit) + if pc != .returned then 1 else 0 := by
  by_cases hpc : pc = .getStatus
  · subst hpc
    cases h with
    | quit hp =>
      have := countP_eraseIdx_add (· == Packet.quit) hp
      simp at this ⊢
      omega
    | dequeue hp =>
      have := countP_eraseIdx_add (· == Packet.quit) hp
      simp at this ⊢
      omega
  · have hr : pc ≠ .returned := by
      rintro rfl
      cases h
    have hone : (if pc != .returned then 1 else 0) = 1 := if_pos (by simpa using hr)
    rw [(worker_frame h).2 hpc, hone]
    split_ifs <;> omega

/-- The part behind the loop posts nothing and dequeues nothing. -/
theorem rest_frame {n : ℕ} {ws : List WorkerPc} {o : Bool} {y : Shared} {pc : FinallyPc}
    {ans : Answer} {q : Shared × FinallyPc} (h : pc.step n ws o y ans = some q) :
    q.1.port = y.port ∧ q.1.g.bEndServer = y.g.bEndServer := by
  obtain ⟨-, rfl⟩ | ⟨⟨g', pc'⟩, hq, rfl⟩ := FinallyPc.step_cases h
  · exact ⟨rfl, rfl⟩
  · have hstep : CleanStep y.g pc g' pc' := FinallyPc.clean_cases hq
    refine ⟨rfl, ?_⟩
    show g'.bEndServer = y.g.bEndServer
    cases hstep with
    | closed hc => exact (closeClient_spec hc).1.bEndServer
    | _ => rfl

theorem step_server (h : s.step (.server b) = some t) :
    ∃ s' o, s.server.step b = some s' ∧ t = { s with server := s', mainOwns := o } := by
  obtain ⟨-, h⟩ := Option.ite_none_left_eq_some.mp h
  obtain ⟨s', hs', rfl⟩ := Option.map_eq_some_iff.mp h
  exact ⟨s', _, hs', rfl⟩

theorem step_main {ans : Answer} (h : s.step (.main ans) = some t) :
    s.server.main = .join ∧ ∃ (q : Shared × FinallyPc) (o : Bool),
      s.rest.step s.server.dwThreadCount s.server.workers s.mainOwns s.server.y ans = some q ∧
      t = ⟨{ s.server with y := q.1 }, q.2, o⟩ := by
  obtain ⟨hm, h⟩ := Option.ite_none_right_eq_some.mp h
  obtain ⟨q, hq, rfl⟩ := Option.map_eq_some_iff.mp h
  exact ⟨hm, q, _, hq, rfl⟩

/-- What holds all along the block. -/
structure Inv (s : Finally) : Prop where
  main : s.server.main.inFinally = true
  bEndServer : s.server.y.g.bEndServer = true

theorem Inv.step (h : Inv s) (hs : s.step a = some t) : Inv t := by
  cases a with
  | main ans =>
    obtain ⟨hm, q, o, hq, rfl⟩ := step_main hs
    exact ⟨h.main, (rest_frame hq).2.trans h.bEndServer⟩
  | server b =>
    obtain ⟨s', o, hs', rfl⟩ := step_server hs
    cases Server.step_cases hs' with
    | worker _ hq =>
      exact ⟨h.main, (worker_frame (WorkerPc.step_cases hq)).1.trans h.bEndServer⟩
    | main hq =>
      have hm := h.main
      generalize s.server.main = pc at hm hq
      cases MainPc.step_cases hq with
      | cleanup =>
        refine ⟨?_, h.bEndServer⟩
        show MainPc.inFinally (if _ then _ else _) = true
        split_ifs <;> rfl
      | quitPosted | quitLost | quitsPosted => exact ⟨rfl, h.bEndServer⟩
      | _ => cases hm
    | complete hc =>
      obtain ⟨_, _, _, -, -, -, rfl⟩ := Shared.complete_cases hc
      exact ⟨h.main, h.bEndServer⟩
    | ctrlEnd => exact ⟨h.main, rfl⟩
    | ctrlEvent => exact ⟨h.main, h.bEndServer⟩

/-! ## What is dequeued in the block is not handled -/

/-- From its dequeue on a worker only gets to the test of `g_bEndServer` and returns. -/
theorem late_worker {v : Bool} {y y' : Shared} {pc pc' : WorkerPc} (h : WorkerStep v y pc y' pc')
    (hend : y.g.bEndServer = true) (hpc : pc.late = true) :
    pc'.late = true ∧ y'.outstanding = y.outstanding ∧ y'.g = y.g := by
  cases h with
  | quit | dequeue | endServer => exact ⟨rfl, rfl, rfl⟩
  | serve he =>
    rw [hend] at he
    cases he
  | _ => cases hpc

/-- The worker `i` stays where it is until it steps itself. -/
theorem late_step {i : ℕ} {pc : WorkerPc} (h : Inv s) (hs : s.step a = some t)
    (hi : s.server.workers[i]? = some pc) (hpc : pc.late = true) :
    ∃ pc', t.server.workers[i]? = some pc' ∧ pc'.late = true := by
  cases a with
  | main ans =>
    obtain ⟨-, q, o, -, rfl⟩ := step_main hs
    exact ⟨pc, hi, hpc⟩
  | server b =>
    obtain ⟨s', o, hs', rfl⟩ := step_server hs
    cases Server.step_cases hs' with
    | @worker j ans pc₁ y' pc' hj hq =>
      by_cases hij : j = i
      · subst hij
        obtain rfl := Option.some.inj (hi.symm.trans hj)
        refine ⟨pc', ?_, (late_worker (WorkerPc.step_cases hq) h.bEndServer hpc).1⟩
        exact List.getElem?_set_self (List.getElem?_eq_some_iff.mp hi).1
      · exact ⟨pc, (List.getElem?_set_ne hij).trans hi, hpc⟩
    | main =>
      refine ⟨pc, ?_, hpc⟩
      exact (List.getElem?_append_left (List.getElem?_eq_some_iff.mp hi).1).trans hi
    | complete | ctrlEnd | ctrlEvent => exact ⟨pc, hi, hpc⟩

theorem Inv.idle (h : Inv s) {i : ℕ} (hi : s.server.workers[i]? = some .getStatus) : s.Idle i := by
  rintro t ⟨as, has⟩ ans t' ht'
  have hlate : ∃ pc, s.server.workers[i]? = some pc ∧ pc.late = true := ⟨_, hi, rfl⟩
  clear hi
  induction as generalizing s with
  | nil =>
    obtain rfl := Option.some.inj has
    obtain ⟨pc, hi, hpc⟩ := hlate
    obtain ⟨s', o, hs', rfl⟩ := step_server ht'
    cases Server.step_cases hs' with
    | worker hi₁ hq =>
      obtain rfl := Option.some.inj (hi.symm.trans hi₁)
      exact (late_worker (WorkerPc.step_cases hq) h.bEndServer hpc).2
  | cons a as ih =>
    obtain ⟨s', hs', has⟩ := Option.bind_eq_some_iff.mp has
    obtain ⟨pc, hi, hpc⟩ := hlate
    exact ih (h.step hs') has (late_step h hs' hi hpc)

/-! ## The quit packets suffice -/

/-- A step of a worker takes a quit packet only to return. -/
theorem Covered.worker {i : ℕ} {v : Bool} {pc pc' : WorkerPc} {y' : Shared} (h : s.Covered)
    (hi : s.server.workers[i]? = some pc) (hs : WorkerStep v s.server.y pc y' pc') :
    Covered { s with
      server := { s.server with y := y', workers := s.server.workers.set i pc' } } := by
  have hq := quits_worker hs
  have hw := countP_set_add (· != .returned) hi pc'
  simp only [Covered, unreturned, quits, toPost] at h ⊢
  omega

/-- A step of `main` in the loop; the test of `g_hIOCP` has to find the port. -/
theorem covered_main {pc pc' : MainPc} {ans : Answer} {y' : Shared} {ws : List WorkerPc}
    (hpc : s.server.main = pc) (hs : MainStep s.server.dwThreadCount s.server.y pc ans y' pc' ws)
    (h : Inv s) (hcov : s.Covered) (hA : s.PostSucceeds (.server (.main ans))) :
    Covered { s with server :=
        { s.server with y := y', main := pc', workers := s.server.workers ++ ws } } ↔
      s.FindsPort (.server (.main ans)) := by
  have hm := h.main
  rw [hpc] at hm
  simp only [Covered, FindsPort, unreturned, quits, toPost, hpc] at hcov ⊢
  cases hs with
  | cleanup =>
    cases hI : s.server.y.g.hIocp with
    | true => simpa using hcov
    | false => simp
  | @quitPosted i ok hi hq =>
    refine iff_of_true ?_ nofun
    simp at hcov ⊢
    omega
  | @quitLost i ok hi hq =>
    obtain ⟨rfl, hI⟩ := hA i hi hpc
    rw [hI] at hq
    cases hq
  | @quitsPosted i ok hi =>
    refine iff_of_true ?_ nofun
    simp at hcov ⊢
    omega
  | _ => cases hm

/-- **A step in the block.** -/
theorem covered_step (h : Inv s) (hcov : s.Covered) (hs : s.step a = some t)
    (hA : s.PostSucceeds a) : t.Covered ↔ s.FindsPort a := by
  cases a with
  | main ans =>
    obtain ⟨-, q, o, hq, rfl⟩ := step_main hs
    refine iff_of_true ?_ trivial
    simp only [Covered, unreturned, quits, toPost, (rest_frame hq).1] at hcov ⊢
    exact hcov
  | server b =>
    obtain ⟨s', o, hs', rfl⟩ := step_server hs
    cases Server.step_cases hs' with
    | worker hi hq => exact iff_of_true (hcov.worker hi (WorkerPc.step_cases hq)) trivial
    | main hq => exact covered_main rfl (MainPc.step_cases hq) h hcov hA
    | complete hc =>
      refine iff_of_true ?_ trivial
      obtain ⟨_, _, _, -, -, -, rfl⟩ := Shared.complete_cases hc
      simp only [Covered, unreturned, quits, toPost, List.countP_append] at hcov ⊢
      omega
    | ctrlEnd | ctrlEvent => exact iff_of_true hcov trivial

theorem Quits.of_covered (h : Inv s) (hcov : s.Covered) : s.Quits := by
  refine ⟨hcov, fun hpost hpc => ?_, fun i hi => h.idle hi⟩
  obtain ⟨pc, hmem, hpc⟩ := hpc
  have hpos : 0 < s.unreturned := List.countP_pos_iff.mpr ⟨pc, hmem, by simpa using hpc⟩
  have hquits : 0 < s.quits := by
    unfold Covered at hcov
    omega
  obtain ⟨p, hp, hq⟩ := List.countP_pos_iff.mp hquits
  exact eq_of_beq hq ▸ hp

theorem Entry.inv (h : Entry s) : Inv s where
  main := by
    rw [h.main]
    rfl
  bEndServer := h.bEndServer

theorem Entry.covered (h : Entry s) : s.Covered := by
  have := List.countP_le_length (p := (· != WorkerPc.returned)) (l := s.server.workers)
  have := h.workers
  simp only [Covered, unreturned, toPost, h.main]
  omega

/-- **Quit packets for all workers, exactly if the port is found.** Let `main` enter the finally block
with a port, in any state, and let its posts succeed. All along the block the quit packets suffice
for the workers that have not returned and nothing dequeued in it is handled, exactly if the test of
`g_hIOCP` finds the port unless no worker is left. -/
theorem quits_cover_iff (h : Entry s) {as : List FinallyAction}
    (hA : machine.AllSteps PostSucceeds s as) :
    machine.Always Quits s as ↔ machine.AllSteps FindsPort s as := by
  refine Machine.always_iff_allSteps_of (I := fun s => Inv s ∧ s.Covered) ?_ ?_ ?_
    ⟨h.inv, h.covered⟩ hA
  · rintro s ⟨hI, hcov⟩
    exact .of_covered hI hcov
  · rintro s a t ⟨hI, hcov⟩ hs hA hC
    exact ⟨hI.step hs, (covered_step hI hcov hs hA).mpr hC⟩
  · rintro s a t ⟨hI, hcov⟩ hs hA hP
    exact (covered_step hI hcov hs hA).mp hP.covered

/-- Two workers and two quit packets, the first of which is taken before the second is posted. -/
theorem quits_cover_two :
    machine.Always Quits ⟨{ Server.initial 2 false with
        y := (Server.initial 2 false).y.leave.1
        workers := [.getStatus, .getStatus]
        main := .cleanup }, .waitThreads, false⟩
      [.server (.main .none), .server (.main (.call true)), .server (.worker 1 (.packet 0)),
        .server (.main (.call true)), .server (.worker 0 (.packet 0))] := by
  refine (quits_cover_iff ⟨rfl, rfl, rfl, rfl, by decide⟩ ?_).mpr ?_
  · intro s₁ h₁
    obtain rfl := Option.some.inj h₁
    refine ⟨trivial, fun s₂ h₂ => ?_⟩
    obtain rfl := Option.some.inj h₂
    refine ⟨fun _ _ _ => ⟨rfl, rfl⟩, fun s₃ h₃ => ?_⟩
    obtain rfl := Option.some.inj h₃
    refine ⟨trivial, fun s₄ h₄ => ?_⟩
    obtain rfl := Option.some.inj h₄
    exact ⟨fun _ _ _ => ⟨rfl, rfl⟩, fun _ _ => ⟨trivial, trivial⟩⟩
  · intro s₁ h₁
    obtain rfl := Option.some.inj h₁
    refine ⟨fun _ => .inl rfl, fun s₂ h₂ => ?_⟩
    obtain rfl := Option.some.inj h₂
    refine ⟨nofun, fun s₃ h₃ => ?_⟩
    obtain rfl := Option.some.inj h₃
    refine ⟨trivial, fun s₄ h₄ => ?_⟩
    obtain rfl := Option.some.inj h₄
    exact ⟨nofun, fun _ _ => ⟨trivial, trivial⟩⟩

/-! ## How the server gets there -/

/-- What the server keeps to up to the finally block. -/
structure Crew (s : Server) : Prop where
  workers : s.workers.length ≤ s.dwThreadCount
  createPort : s.main = .createPort → s.workers.length = 0
  createThread : ∀ dwCPU, s.main = .createThread dwCPU → s.workers.length = dwCPU
  bEndServer : s.main.inFinally = true → s.y.g.bEndServer = true

theorem Crew.main {s : Server} (h : Crew s) {pc pc' : MainPc} {ans : Answer} {y' : Shared}
    {ws : List WorkerPc} (hpc : s.main = pc)
    (hs : MainStep s.dwThreadCount s.y pc ans y' pc' ws) :
    Crew { s with y := y', main := pc', workers := s.workers ++ ws } := by
  have hlen := h.workers
  cases hs with
  | portCreated =>
    have := h.createPort hpc
    exact ⟨by simpa using hlen, nofun, fun k hk => by simpa [← MainPc.createThread.inj hk] using this,
      nofun⟩
  | @threadCreated dwCPU hlt =>
    have := h.createThread dwCPU hpc
    refine ⟨?_, nofun, fun k hk => ?_, nofun⟩
    · simp only [List.length_append, List.length_singleton]
      omega
    · obtain rfl := MainPc.createThread.inj hk
      simp only [List.length_append, List.length_singleton]
      omega
  | cleanup =>
    refine ⟨by simpa using hlen, fun hk => ?_, fun k hk => ?_, fun _ => h.bEndServer (hpc ▸ rfl)⟩
    · cases hI : s.y.g.hIocp <;> simp [hI] at hk
    · cases hI : s.y.g.hIocp <;> simp [hI] at hk
  | quitPosted | quitLost | quitsPosted =>
    exact ⟨by simpa using hlen, nofun, nofun, fun _ => h.bEndServer (hpc ▸ rfl)⟩
  | portFailed | threadFailed | resolveFailed | listenFailed | bindFailed | noMemory
    | associateFailed | ioctlFailed | createFailed | waited =>
    exact ⟨by simpa using hlen, nofun, nofun, fun _ => rfl⟩
  | _ => exact ⟨by simpa using hlen, nofun, nofun, nofun⟩

theorem Crew.step {s t : Server} {a : Action} (h : Crew s) (hs : s.step a = some t) : Crew t := by
  cases Server.step_cases hs with
  | @worker i ans pc y' pc' hi hq =>
    have hl : (s.workers.set i pc').length = s.workers.length := List.length_set
    have hend := (worker_frame (WorkerPc.step_cases hq)).1
    exact ⟨hl.le.trans h.workers, fun hm => hl.trans (h.createPort hm),
      fun k hm => hl.trans (h.createThread k hm), fun hm => hend.trans (h.bEndServer hm)⟩
  | main hq => exact h.main rfl (MainPc.step_cases hq)
  | complete hc =>
    obtain ⟨_, _, _, -, -, -, rfl⟩ := Shared.complete_cases hc
    exact ⟨h.workers, h.createPort, h.createThread, h.bEndServer⟩
  | ctrlEnd => exact ⟨h.workers, h.createPort, h.createThread, fun _ => rfl⟩
  | ctrlEvent => exact ⟨h.workers, h.createPort, h.createThread, h.bEndServer⟩

/-- The server gets into the block as `Entry` has it. -/
theorem entry_of_reachable {s : Server} (h : Server.machine.Reachable s) (hm : s.main = .cleanup)
    (hI : s.y.g.hIocp = true) (mainOwns : Bool) : Entry ⟨s, .waitThreads, mainOwns⟩ := by
  have hcrew : Crew s := by
    refine h.invariant (P := Crew) ?_ fun s a t _ hs _ hstep => hs.step hstep
    rintro _ ⟨n, v, rfl⟩
    exact ⟨Nat.zero_le _, fun _ => rfl, nofun, nofun⟩
  refine ⟨hm, rfl, hI, hcrew.bEndServer ?_, hcrew.workers⟩
  rw [hm]
  rfl

/-- CTRL-C while one worker associates an accept socket and the other waits: the association fails
after `main` has entered the block and before it tests `g_hIOCP`. No quit packet is posted, and the
other worker waits on. -/
theorem uncovered_by_failed_association : ∃ s t, Server.machine.Reachable s ∧ s.main = .cleanup ∧
    Entry ⟨s, .waitThreads, false⟩ ∧
    machine.AllSteps PostSucceeds ⟨s, .waitThreads, false⟩ [.server (.worker 0 (.call false)),
      .server (.main .none), .server (.worker 0 .none)] ∧
    machine.run ⟨s, .waitThreads, false⟩ [.server (.worker 0 (.call false)), .server (.main .none),
      .server (.worker 0 .none)] = some t ∧
    t.server.workers = [.returned, .getStatus] ∧ t.server.y.port = [] ∧ t.toPost = 0 ∧
    ¬ t.Covered := by
  obtain ⟨s, hs, hm, hI, t, ht, hw, hp, hpost⟩ : ∃ s, Server.machine.run
      (Server.initial 2 false) [.main (.call true), .main (.call true), .main (.call true),
        .main .none, .main (.call true), .main (.call true), .main (.call true),
        .main (.heap (.ok 0)), .main (.call true), .main (.call true), .main (.call true),
        .main (.overlapped .success), .complete 0 (.data [65] []) true, .worker 0 (.packet 0),
        .worker 0 .none, .worker 0 .none, .worker 0 (.call true), .worker 0 (.heap (.ok 1)),
        .ctrlEnd, .ctrlEvent, .main (.call true)] = some s ∧ s.main = .cleanup ∧
      s.y.g.hIocp = true ∧ ∃ t, machine.run ⟨s, .waitThreads, false⟩
        [.server (.worker 0 (.call false)), .server (.main .none), .server (.worker 0 .none)] =
          some t ∧ t.server.workers = [.returned, .getStatus] ∧ t.server.y.port = [] ∧
        t.toPost = 0 :=
    ⟨_, rfl, rfl, rfl, _, rfl, rfl, rfl, rfl⟩
  have hr : Server.machine.Reachable s := Machine.Reachable.run (.init ⟨2, false, rfl⟩) hs
  refine ⟨s, t, hr, hm, entry_of_reachable hr hm hI false, ?_, ht, hw, hp, hpost, ?_⟩
  · apply Machine.allSteps_of_forall
    simp [PostSucceeds]
  · rw [Covered, unreturned, quits, hw, hp, hpost]
    decide

end Finally

end SelfStudy.Iocp
