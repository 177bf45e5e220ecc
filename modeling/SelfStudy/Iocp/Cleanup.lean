import SelfStudy.Iocp.Contexts
import SelfStudy.Iocp.SocketOwnership

/-!
# What an iteration leaves behind

The finally block empties the globals, and `CtxtListFree` the list, so at its end every thread handle,
port, socket and context made so far has been closed or freed, and once.

Three things break this. If `WaitForMultipleObjects` does not return `WAIT_OBJECT_0`, which it cannot
where a worker has not been created, the handles of the threads stay open in `g_ThreadHandles`. An
association that fails overwrites `g_hIOCP`, so that nothing closes the port. And once
`CtxtListDeleteFrom` has mistaken the oldest context for the head of the list, `CtxtListFree` does not
come to the others. `cleaned_up` says that these are all.
-/

namespace SelfStudy.Iocp

open Lib Globals

/-- `main` as the owners of the sockets see it. -/
def LoopPc.mainPc : LoopPc → MainPc
  | .associate a => .associate a
  | _ => .wait

/-- The worker has given the accept socket to its new client and not replaced it yet. -/
def LoopWorker.handedOver : LoopWorker → Bool
  | .associate _ | .addTo _ | .prepare _ | .createSocket _ => true
  | _ => false

theorem LoopWorker.serving_of_handedOver (w : LoopWorker) (h : w.handedOver = true) :
    w.serving = true := by
  cases w <;> first | rfl | cases h

theorem LoopPc.mainPc_eq_associate {pc : LoopPc} {a : Addr} :
    pc.mainPc = .associate a ↔ pc = .associate a := by
  cases pc <;> simp [mainPc]

theorem Globals.sameSockets_acceptEx {g g' : Globals} {started : Bool}
    (h : g.acceptEx started = some g') : SameSockets g g' := by
  obtain ⟨a, io, -, -, rfl⟩ := acceptEx_cases h
  cases started with
  | true => exact sameSockets_modifyIo a fun _ => rfl
  | false => exact .refl g

namespace RestartLoop

variable (s : RestartLoop)

/-- A worker has given the accept socket to its new client and not replaced it yet. -/
def HandedOver : Prop := ∃ w ∈ s.threads, w.handedOver = true

/-- The sockets have their owners; before the first accept socket, and at the end, there is none. -/
structure SocketsKept : Prop extends s.g.SocketsOwned s.pc.mainPc s.HandedOver where
  unaccepted : s.pc.rank ≤ 14 ∨ 27 ≤ s.pc.rank → s.g.acceptSocket = none

/-- What the finally block is to bring about. -/
structure CleanedUp : Prop where
  threads : ∀ t < s.threads.length, s.closedThreads.count t = 1
  ports : ∀ p < s.ports, s.closedPorts.count p = 1
  sockets : ∀ q < s.g.sockets, s.g.closed.count q = 1
  contexts : ∀ c < s.g.serial, s.freed.count c = 1
  threadHandles : ∀ h ∈ s.threadHandles, h = none
  hIocp : s.g.hIocp = false
  sdListen : s.g.sdListen = none
  pCtxtListenSocket : s.g.pCtxtListenSocket = none
  pCtxtList : s.g.pCtxtList = none

variable {s} {s' : RestartLoop} {pc : LoopPc} {ans : LoopAnswer} {t : ℕ} {w : LoopWorker}
  {m : WorkerMove} {g : Globals} {a c : Addr}

/-! ## The sockets -/

/-- A step that moves no socket. -/
theorem SocketsKept.same (h : s.SocketsKept) (S : SameSockets s.g s'.g)
    (ho : s'.HandedOver ↔ s.HandedOver) (hp : s'.pc = s.pc ∨ s.pc.Passes s'.pc) :
    s'.SocketsKept := by
  have hm : ∀ a, s'.pc.mainPc = .associate a ↔ s.pc.mainPc = .associate a := by
    intro a
    rcases hp with hp | hp
    · rw [hp]
    · have hne : ∀ {pc : LoopPc}, pc.atContext = false → pc ≠ .associate a := by
        rintro _ h rfl
        cases h
      simp only [LoopPc.mainPc_eq_associate, hne hp.before, hne hp.after]
  refine ⟨h.toSocketsOwned.same S hm ho, fun hr => S.acceptSocket.trans (h.unaccepted ?_)⟩
  rcases hp with hp | hp
  · exact hp ▸ hr
  · exact hp.accept hr

/-- While a worker is in the accept case `main` has made its sockets. -/
theorem Stage.served (hS : s.Stage) (ht : s.threads[t]? = some w) (hw : w.serving = true) :
    15 < s.pc.rank ∧ s.pc.rank < 21 := by
  by_contra h
  have := hS.not_serving ht (by omega)
  rw [hw] at this
  cases this

theorem mainPc_ne_of_rank (h : 12 < s.pc.rank) (a : Addr) : s.pc.mainPc ≠ .associate a := by
  rw [ne_eq, LoopPc.mainPc_eq_associate]
  intro e
  rw [e] at h
  exact absurd h (by simp)

/-- **A step of a worker.** -/
theorem SocketsKept.worker (h : s.SocketsKept) (hA : s.Attended) (hK : s.ContextsKept)
    (hK' : s'.ContextsKept) (hw : LoopWorkerStep s t w m s') (ht : s.threads[t]? = some w)
    (hC : s.Cleans (.worker t m)) : s'.SocketsKept := by
  have hf := hw.frame ht
  have hserve : w.serving = true → (s.HandedOver ↔ w.handedOver = true) := fun hw =>
    exists_serving_iff LoopWorker.serving_of_handedOver hA.load_le ht hw
  have hset : w.serving = true → ∀ x, s'.threads = s.threads.set t x →
      (s'.HandedOver ↔ x.handedOver = true) := by
    intro hw x hth
    unfold HandedOver
    rw [hth]
    exact exists_set_iff LoopWorker.serving_of_handedOver hA.load_le ht hw x
  have hsame : ∀ x, s'.threads = s.threads.set t x → x.handedOver = w.handedOver →
      (s'.HandedOver ↔ s.HandedOver) := by
    intro x hth hx
    unfold HandedOver
    rw [hth]
    exact exists_mem_set_iff ht (by rw [hx])
  have hbusy : w.serving = true → ¬ (s.pc.rank ≤ 14 ∨ 27 ≤ s.pc.rank) := by
    intro hw
    have := hA.served ht hw
    omega
  cases hw with
  | @closed _ a _ hne ha hg =>
    have hmain : ¬ s.MainContext a := fun h => hK.apart a ha (.inr h)
    refine ⟨h.toSocketsOwned.closeClient hg (hK.remaining.live a ha) (fun e => hmain (.inr e))
      fun e => hmain (.inl (LoopPc.mainPc_eq_associate.mp e)), fun hr => ?_⟩
    -- there is no client at these statements
    have hr : s.pc.rank ≤ 14 ∨ 27 ≤ s.pc.rank := hr
    have hempty : s.listed = [] := hK.noClients (by omega)
    rw [hempty] at ha
    cases ha
  | @allocated x k io c hx hk hio hc =>
    cases x with
    | noSocketContext => cases hc
    | noIoContext b =>
      obtain rfl := Option.some.inj hc
      have hlt := (List.getElem?_eq_some_iff.mp ht).1
      have hlive := (hK'.live_iff b).mpr (.inr (.inl ⟨.associate b, List.mem_set hlt _, rfl⟩))
      simp at hlive
    | ok b =>
      obtain rfl := Option.some.inj hc
      have hb : s.g.live b = false := by simpa using hx
      have hlive : s.g.live k = true := (hK.live_iff k).mpr (.inr (.inr (.inr hk)))
      have hr := (hA.served ht rfl).1
      exact ⟨h.toSocketsOwned.allocate hk hlive hio hb (mainPc_ne_of_rank (by omega))
        (fun hh => nomatch (hserve rfl).mp hh) ((hset rfl (.associate b) rfl).mpr rfl) rfl,
        fun hr => absurd hr (hbusy rfl)⟩
  | associateFailed => cases hC
  | created hg | createFailed hg =>
    obtain ⟨k, io, hk, hio, rfl⟩ := createAccept_cases hg
    have hover : s.HandedOver := (hserve rfl).mpr rfl
    exact ⟨h.toSocketsOwned.createAccept hk hio (fun sd hx => hx.1 hover) (fun _ => Iff.rfl)
      (fun hh => nomatch (hset rfl _ rfl).mp hh) rfl, fun hr => absurd hr (hbusy rfl)⟩
  | acceptEx hg => exact h.same (sameSockets_acceptEx hg) (hsame .getStatus rfl rfl) (.inl rfl)
  | added => exact h.same (sameSockets_addTo _ _) (hsame (.prepare _) rfl rfl) (.inl rfl)
  | _ =>
    refine h.same ?_ (hsame _ rfl rfl) (.inl rfl)
    constructor <;> intros <;> rfl

/-- **A step behind the wait.** -/
theorem SocketsKept.cleaned {pc pc' : FinallyPc} (h : s.SocketsKept) (hA : s.Attended)
    (hK : s.ContextsKept) (hpc : s.pc = .rest pc) (hc : CleanStep s.g pc g pc') :
    SocketsKept { s.record pc with g := g, pc := .rest pc' } := by
  have hr := hc.rank_lt
  have hrank : s.pc.rank = pc.rank := by rw [hpc]; rfl
  have hover : ¬ s.HandedOver := by
    rintro ⟨w, hw, ho⟩
    rw [hA.quiet (.inr (by omega)) w hw] at ho
    cases ho
  have hm : ∀ a : Addr, MainPc.wait = .associate a ↔ s.pc.mainPc = .associate a := fun a =>
    iff_of_false nofun (mainPc_ne_of_rank (by omega) a)
  have hsame : SameSockets s.g g → g.SocketsOwned .wait s.HandedOver := fun S =>
    h.toSocketsOwned.same S hm Iff.rfl
  have hO : s.g.SocketsOwned .wait s.HandedOver := h.toSocketsOwned.same (.refl _) hm Iff.rfl
  refine ⟨?_, fun hlast => ?_⟩
  · show g.SocketsOwned .wait s.HandedOver
    cases hc with
    | listenClosed =>
      refine hO.close (r := .sdListen) (fun o => Iff.rfl) rfl rfl nofun (fun r o hr => ?_) hO.noAccept
      cases r with
      | sdListen => exact absurd rfl hr
      | socketAccept | socket => exact Iff.rfl
    | @completed a => exact hsame (sameSockets_touch a)
    | @acceptClosed a io hio => exact hO.closeAccept (hK.closing a hpc) hio hover rfl
    | @closed a _ hg =>
      have ha : a ∈ s.listed := List.mem_of_head? (hK.next (some a) hpc).symm
      have hmain : ¬ s.MainContext a := fun h => hK.apart a ha (.inr h)
      exact (hO.same (sameSockets_touch a) (fun _ => Iff.rfl) Iff.rfl).closeClient hg
        (hK.remaining.live a ha) (fun e => hmain (.inr e)) nofun
    | noContext => exact hO
    | _ =>
      refine hsame ?_
      constructor <;> intros <;> rfl
  · have hlate : 26 ≤ pc.rank := by
      cases hc <;> simp at hlast ⊢
    have hne : ∀ a, pc ≠ .closeAccept a := by
      rintro a rfl
      exact absurd hlate (by simp)
    exact acceptSocket_of_not_listening ((hc.globals.2.2.1 hne).trans (hA.noContext (by omega)))

/-- **A step of `main`.** -/
theorem SocketsKept.main (h : s.SocketsKept) (hA : s.Attended) (hK : s.ContextsKept)
    (hK' : s'.ContextsKept) (hs : LoopStep s s.pc ans s') (hC : s.Cleans (.main ans)) :
    s'.SocketsKept := by
  have hover : s'.HandedOver ↔ s.HandedOver := hs.exists_threads_iff nofun
  generalize hpc : s.pc = pc at hs
  cases hs with
  | jump hj => exact h.same (.refl _) hover (.inr (hpc ▸ hj.passes))
  | cleaned hc => exact h.cleaned hA hK hpc hc
  | listenCreated | listenFailed =>
    have hr : s.pc.rank = 9 := by rw [hpc]; rfl
    refine ⟨h.toSocketsOwned.listenSocket (hA.noListen (by omega)) fun a => ?_, fun _ => ?_⟩
    · rw [LoopPc.mainPc_eq_associate, LoopPc.mainPc_eq_associate, hpc]
      exact iff_of_false nofun nofun
    · exact acceptSocket_of_not_listening (hA.noContext (by omega))
  | @allocated _ x a hx ha =>
    have hr : s.pc.rank = 11 := by rw [hpc]; rfl
    have hlisten := hA.noContext (by omega)
    cases x with
    | noSocketContext => cases ha
    | noIoContext b =>
      obtain rfl := Option.some.inj ha
      have hlive := (hK'.live_iff b).mpr (.inr (.inr (.inl rfl)))
      simp at hlive
    | ok b =>
      obtain rfl := Option.some.inj ha
      refine ⟨h.toSocketsOwned.allocateListen hlisten (by simpa using hx)
        (fun a e => ?_) rfl, fun _ => acceptSocket_of_not_listening hlisten⟩
      cases hpc.symm.trans (LoopPc.mainPc_eq_associate.mp e)
  | noMemory =>
    have hlisten := hA.noContext (.inl (by rw [hpc]; decide))
    refine h.same ⟨rfl, rfl, rfl, hlisten.symm, rfl, fun _ => rfl, fun _ => rfl⟩ hover (.inr (hpc ▸ ?_))
    constructor <;> simp
  | @associated a =>
    have hr : s.pc.rank = 12 := by rw [hpc]; rfl
    have hlisten := hA.noContext (by omega)
    have hlive := (hK.live_iff a).mpr (.inr (.inr (.inl hpc)))
    have hacc := h.noAccept a hlive (by rw [hlisten]; exact nofun)
    have hO := h.toSocketsOwned
    rw [hpc] at hO
    exact ⟨hO.associateListen hlisten hacc rfl rfl rfl rfl (fun _ _ => rfl) (.inl rfl) nofun,
      fun _ => hacc⟩
  | associateFailed => cases hC _ hpc
  | created hg | createFailed hg =>
    have hr : s.pc.rank = 14 := by rw [hpc]; rfl
    have hnone := h.unaccepted (.inl hr.le)
    have hload := not_exists_of_load LoopWorker.serving_of_handedOver (hA.idle (by omega))
    obtain ⟨k, io, hk, hio, rfl⟩ := createAccept_cases hg
    refine ⟨h.toSocketsOwned.createAccept hk hio (fun sd hx => nomatch hnone.symm.trans hx.2)
      (fun a => ?_) hload rfl, fun hr => absurd hr (by simp)⟩
    rw [LoopPc.mainPc_eq_associate, LoopPc.mainPc_eq_associate, hpc]
    exact iff_of_false nofun nofun
  | acceptEx hg =>
    refine h.same (sameSockets_acceptEx hg) hover (.inr (hpc ▸ ?_))
    constructor <;> simp
  | _ =>
    refine h.same ?_ hover (.inr (hpc ▸ ?_))
    · constructor <;> intros <;> rfl
    · constructor <;> simp

/-! ## Along a run -/

/-- What a run keeps whose steps all meet the condition. -/
def Kept (s : RestartLoop) : Prop := s.Attended ∧ (s.Stuck ∨ s.ContextsKept ∧ s.SocketsKept)

theorem SocketsKept.step {b : LoopAction} (h : s.SocketsKept) (hA : s.Attended) (hK : s.ContextsKept)
    (hK' : s'.ContextsKept) (hC : s.Cleans b) (hs : Step s b s') : s'.SocketsKept := by
  cases hs with
  | main hs => exact h.main hA hK hK' hs hC
  | worker ht hw => exact h.worker hA hK hK' hw ht hC
  | event => exact h.same (.refl _) Iff.rfl (.inl rfl)
  | @handler i x =>
    refine h.same ?_ (by cases x <;> exact Iff.rfl) (by cases x <;> exact .inl rfl)
    cases x <;> constructor <;> intros <;> rfl
  | @complete a io ha hio hp =>
    exact h.same (sameSockets_modifyIo a fun _ => rfl) Iff.rfl (.inl rfl)

theorem Kept.step {b : LoopAction} (h : s.Kept) (hC : s.Cleans b) (hs : Step s b s') : s'.Kept := by
  obtain ⟨hA, hS | ⟨hK, hSk⟩⟩ := h
  · exact ⟨hA.step hC hs, .inl (hS.step hA hC hs)⟩
  · refine ⟨hA.step hC hs, (hK.step hA hC hs).imp_right fun hK' => ⟨hK', ?_⟩⟩
    exact hSk.step hA hK hK' hC hs

theorem contextsKept_initial (n : UInt32) : (initial n).ContextsKept := by
  have hfree : ∀ r c, ¬ (initial n).g.OwnsContext [] r c := by
    rintro (_ | a) c h
    · cases h
    · cases h.1
  have hloose : ∀ a, ¬ (initial n).Loose a := by
    rintro a (⟨w, hw, -⟩ | h | h)
    · cases hw
    · cases h
    · cases h
  have hfiled : Filed (initial n).g [] [] (initial n).Loose :=
    ⟨List.nodup_nil, ⟨fun r c h => (hfree r c h).elim, nofun, fun c r _ h => (hfree r c h).elim⟩,
      fun a => iff_of_false nofun (by simp [hloose]), nofun, nofun, List.nodup_nil, nofun, trivial,
      nofun, fun _ => rfl⟩
  exact ⟨hfiled, fun a ha => absurd (.inl ha) (hloose a), fun _ => rfl, fun p h => (nomatch h),
    fun _ => rfl, fun a h => (nomatch h)⟩

theorem socketsKept_initial (n : UInt32) : (initial n).SocketsKept := by
  refine ⟨(SocketsOwned.initial _ _).same ?_ (fun _ => Iff.rfl) Iff.rfl, fun _ => rfl⟩
  constructor <;> intros <;> rfl

theorem kept_initial {n : UInt32} (hn : (initial n).dwThreadCount ≤ maxWorkerThread) :
    (initial n).Kept :=
  ⟨attended_initial hn, .inr ⟨contextsKept_initial n, socketsKept_initial n⟩⟩

theorem kept_of_reachable (h : machine.ReachableIf Cleans s) (hn : s.dwThreadCount ≤ maxWorkerThread) :
    s.Kept := by
  refine h.invariant (P := fun s => s.dwThreadCount ≤ maxWorkerThread → s.Kept) ?_ ?_ hn
  · rintro _ ⟨n, rfl⟩
    exact kept_initial
  · intro s a s' _ hK hC hs hn
    have hs := step_cases hs
    exact (hK (hs.dwThreadCount ▸ hn)).step hC hs

/-- At the end of the finally block no global holds anything, so all is closed. -/
theorem Kept.cleanedUp (h : s.Kept) (hpc : s.pc = .rest .finished) : s.CleanedUp := by
  obtain ⟨hA, hS | ⟨hK, hSk⟩⟩ := h
  · exact (hS.not_finished hA hpc).elim
  have hr : s.pc.rank = 28 := by rw [hpc]; rfl
  have hI := hA.noPort (by omega)
  have hlisten := hA.noContext (by omega)
  have hsdl := hA.noListen (by omega)
  have hclients := hK.noClients (by omega)
  have hentries : ∀ h ∈ s.threadHandles, h = none := by
    intro h hmem
    obtain ⟨j, hj⟩ := List.getElem?_of_mem hmem
    cases h with
    | none => rfl
    | some t =>
      have := hA.entries j t hj
      rw [hpc] at this
      simp [LoopPc.Holds] at this
  have hlive : ∀ a, s.g.live a = false := by
    intro a
    by_contra hl
    rcases (hK.live_iff a).mp (by simpa using hl) with ha | ha | ha | ha
    · rw [hclients] at ha
      cases ha
    · exact hA.not_unlisted (by omega) a ha
    · cases hpc.symm.trans ha
    · cases hlisten.symm.trans ha
  refine ⟨fun t ht => ?_, fun p hp => ?_, fun q hq => ?_, fun c hc => ?_, hentries, hI, hsdl, hlisten,
    ?_⟩
  · have hone := hA.threadsKept.eq_one ht
    have hzero : s.threadHandles.count (some t) = 0 :=
      List.count_eq_zero.mpr fun hmem => by cases hentries _ hmem
    rwa [threadKept, hzero, Nat.add_zero] at hone
  · have hone := hA.portsKept.eq_one hp
    rwa [portKept, openPort, hI, if_neg Bool.false_ne_true, place_none, Nat.add_zero] at hone
  · refine List.count_eq_one_of_mem hSk.nodup ?_
    obtain ⟨r, hr⟩ := hSk.holding.held q hq
    cases r using owner_cases with
    | none => exact hr
    | sdListen => cases hsdl.symm.trans hr
    | socketAccept => cases (acceptSocket_of_not_listening hlisten).symm.trans hr.2
    | socket a => cases (hlive a).symm.trans hr.1
  · refine List.count_eq_one_of_mem hK.nodup ?_
    obtain ⟨r, hr⟩ := hK.contexts.held c hc
    cases r with
    | none => exact hr
    | some a => cases (hlive a).symm.trans hr.1
  · refine (hK.head fun p e => ?_).trans (congrArg List.head? hclients)
    cases hpc.symm.trans e

/-- **Every iteration cleans up after itself**, on up to `MAX_WORKER_THREAD / 2` processors, in a run in
which every wait for the threads succeeds unless no thread has been created, no association fails,
and every client that goes is deleted in one of the ways that keep the list: at the end of each
finally block all handles, ports, sockets and contexts made so far have been closed or freed exactly
once, and the globals hold none. -/
theorem cleaned_up (h : machine.ReachableIf Cleans s) (hn : s.dwThreadCount ≤ maxWorkerThread)
    (hpc : s.pc = .rest .finished) : s.CleanedUp :=
  (kept_of_reachable h hn).cleanedUp hpc

/-- A CTRL-C on a machine with one processor, with a client connected. -/
theorem cleaned_up_ctrl_c : ∃ s, machine.ReachableIf Cleans s ∧ s.pc = .rest .finished ∧
    s.ports = 1 ∧ s.g.sockets = 3 ∧ s.CleanedUp := by
  obtain ⟨s, hs, hpc, hcount, hports, hsockets⟩ : ∃ s, machine.run (initial 1)
      (startupRun 1 ++ acceptRun 1 ++ [.event false, .handler 0, .handler 0] ++ cleanupRun 1 ++
      [.main .none, .main .none, .main .none, .main .none, .main .none]) = some s ∧
      s.pc = .rest .finished ∧ s.dwThreadCount = 2 ∧ s.ports = 1 ∧ s.g.sockets = 3 :=
    ⟨_, rfl, rfl, rfl, rfl, rfl⟩
  have h : machine.ReachableIf Cleans s := by
    refine .run (.init ⟨1, rfl⟩) (Machine.allSteps_of_forall ?_ _) hs
    simp [startupRun, acceptRun, cleanupRun, List.range_succ, Cleans]
  exact ⟨s, h, hpc, hports, hsockets, cleaned_up h (by rw [hcount]; decide) hpc⟩

/-- Of three clients the first has left, in none of these ways: the last stays in the list. -/
example : ∃ s, machine.run (initial 1) (startupRun 1 ++ acceptRun 1 ++ acceptRun 2 ++ acceptRun 3 ++
      [.worker 0 (.closeClient 1), .event false, .handler 0, .handler 0] ++ cleanupRun 1 ++
      [.main .none, .main .none, .main .none, .main .none, .main .none]) = some s ∧
    s.pc = .rest .finished ∧ s.g.sockets = 5 ∧ s.g.closed = [1, 0, 4, 2] ∧
    s.g.pCtxtList = some 3 := ⟨_, rfl, rfl, rfl, rfl, rfl⟩

/-- The second worker cannot be created: `WaitForMultipleObjects` fails, since an entry of
`g_ThreadHandles` is no handle, and the handle of the first worker is neither closed nor reset. -/
theorem thread_handle_left : ∃ s, machine.run (initial 1) [.main (.call true), .main (.call true),
      .main .none, .main .none, .main .none, .main .none, .main (.call true), .main (.call true),
      .main (.call false), .main .none, .main .none, .main (.call true), .main (.call true),
      .main .none, .worker 0 .quit, .main (.wait .failed), .main .none, .main .none, .main .none,
      .main .none, .main .none] = some s ∧
    s.pc = .rest .finished ∧ s.threads = [.returned] ∧ s.closedThreads = [] ∧
    s.threadHandles[0]? = some (some 0) ∧ ¬ s.CleanedUp := by
  obtain ⟨s, hs, hpc, hthreads, hclosed, hentry⟩ : ∃ s, machine.run (initial 1)
      [.main (.call true), .main (.call true), .main .none, .main .none, .main .none, .main .none,
      .main (.call true), .main (.call true), .main (.call false), .main .none, .main .none,
      .main (.call true), .main (.call true), .main .none, .worker 0 .quit, .main (.wait .failed),
      .main .none, .main .none, .main .none, .main .none, .main .none] = some s ∧
      s.pc = .rest .finished ∧ s.threads = [.returned] ∧ s.closedThreads = [] ∧
      s.threadHandles[0]? = some (some 0) := ⟨_, rfl, rfl, rfl, rfl, rfl⟩
  refine ⟨s, hs, hpc, hthreads, hclosed, hentry, fun h => ?_⟩
  cases h.threadHandles _ (List.mem_of_getElem? hentry)

end RestartLoop

end SelfStudy.Iocp
