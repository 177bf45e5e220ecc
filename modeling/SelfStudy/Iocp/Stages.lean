import SelfStudy.Iocp.Keepers
import SelfStudy.Iocp.ListFree
import SelfStudy.Iocp.Restart
import SelfStudy.Lib.Custody

/-!
# The stages of an iteration

How far `main` is says which globals may hold something: `Stage` is what of the workers, the accept
and the port is still there at each statement. With it go the handles of the threads and the ports,
each of which is in a global or has been closed; `Attended` puts these together.

None of it depends on what the contexts hold, so it needs nothing about the list.
-/

namespace SelfStudy.Iocp

open Lib Globals

/-- The place of a statement in the finally block, behind those of the startup. -/
@[simp] def FinallyPc.rank : FinallyPc → ℕ
  | .waitThreads => 20
  | .closeListen => 22
  | .awaitAccept => 23
  | .closeAccept _ => 24
  | .ctxtListFree => 25
  | .closeNext _ => 26
  | .closePort => 27
  | .finished => 28

/-- The place of a statement in `main`. -/
@[simp] def LoopPc.rank : LoopPc → ℕ
  | .createEvent => 0
  | .startup => 1
  | .test => 2
  | .clearRestart => 3
  | .clearEnd => 4
  | .resetEvent => 5
  | .createPort => 6
  | .createThread _ => 7
  | .getaddrinfo => 8
  | .listenSocket => 9
  | .bindListen => 10
  | .allocate => 11
  | .associate _ => 12
  | .ioctl => 13
  | .createSocket => 14
  | .acceptEx => 15
  | .wait => 16
  | .endServer => 17
  | .testPort => 18
  | .postQuit _ => 19
  | .closeThreads _ => 21
  | .rest pc => pc.rank
  | .exited => 29

/-- Whether `g_ThreadHandles[j]` may hold a handle. -/
def LoopPc.Holds (n j : ℕ) : LoopPc → Prop
  | .createThread k => j < k ∧ j < n
  | .closeThreads i => i ≤ j ∧ j < n
  | pc => 8 ≤ pc.rank ∧ pc.rank ≤ 20 ∧ j < n

/-- The worker is between the dequeue of an accept packet and its next AcceptEx. -/
def LoopWorker.serving : LoopWorker → Bool
  | .accepted | .associate _ | .addTo _ | .prepare _ | .createSocket _ | .acceptEx => true
  | _ => false

/-! ## The accept outstanding -/

namespace Globals

/-- Whether the operation on the context is outstanding. -/
def pendingAt (g : Globals) (a : Addr) : ℕ := ((g.io a).map fun io => io.pending.toNat).getD 0

/-- The accepts outstanding. -/
def pendings (g : Globals) : ℕ := (g.pCtxtListenSocket.map g.pendingAt).getD 0

variable {g g' : Globals} {a : Addr}

theorem pendings_none (h : g.pCtxtListenSocket = none) : g.pendings = 0 := by
  rw [pendings, h]
  rfl

theorem pendings_of_listening (h : g.pCtxtListenSocket = some a) : g.pendings = g.pendingAt a := by
  rw [pendings, h]
  rfl

theorem pendingAt_le (g : Globals) (a : Addr) : g.pendingAt a ≤ 1 := by
  unfold pendingAt
  cases g.io a with
  | none => exact Nat.zero_le 1
  | some io => exact Bool.toNat_le io.pending

theorem pendings_le (g : Globals) : g.pendings ≤ 1 := by
  cases h : g.pCtxtListenSocket with
  | none => exact (pendings_none h).trans_le (Nat.zero_le 1)
  | some a => exact (pendings_of_listening h).trans_le (g.pendingAt_le a)

/-- A step after which no operation is outstanding that was not. -/
theorem pendings_mono (hl : g'.pCtxtListenSocket = g.pCtxtListenSocket)
    (hp : ∀ b, g'.pendingAt b ≤ g.pendingAt b) : g'.pendings ≤ g.pendings := by
  cases h : g.pCtxtListenSocket with
  | none => rw [pendings_none (hl.trans h), pendings_none h]
  | some a =>
    rw [pendings_of_listening (hl.trans h), pendings_of_listening h]
    exact hp a

theorem pendingAt_congr (h : g'.io a = g.io a) : g'.pendingAt a = g.pendingAt a := by
  rw [pendingAt, h, pendingAt]

theorem pendingAt_modifyIo {f : PerIoContext → PerIoContext}
    (hf : ∀ io, (f io).pending = io.pending) (b : Addr) :
    (g.modifyIo a f).pendingAt b = g.pendingAt b := by
  unfold pendingAt
  rw [io_modifyIo]
  split_ifs
  · rw [Option.map_map]
    congr 2
    funext io
    exact congrArg Bool.toNat (hf io)
  · rfl

theorem pendings_createAccept {ok : Bool} (h : g.createAccept ok = some g') :
    g'.pendings ≤ g.pendings := by
  obtain ⟨a, io, -, -, rfl⟩ := createAccept_cases h
  have W : Within g (g.createSocket ok).1 none := within_createSocket ok
  refine pendings_mono W.pCtxtListenSocket fun b => ?_
  rw [pendingAt_modifyIo, pendingAt_congr (W.io nofun)]
  exact fun _ => rfl

/-- A new context has no operation outstanding. -/
theorem pendingAt_allocate (sd : Option Socket) (op : IoOperation) (x : Allocation) (g : Globals)
    (b : Addr) : (ctxtAllocate sd op x g).1.pendingAt b =
      if (ctxtAllocate sd op x g).2 = some b then 0 else g.pendingAt b := by
  cases x with
  | noSocketContext => rfl
  | ok a =>
    by_cases hb : b = a
    · subst hb
      simp [ctxtAllocate, pendingAt, io, PerIoContext.initial]
    · simp [ctxtAllocate, pendingAt, io, hb, Ne.symm hb]
  | noIoContext a =>
    by_cases hb : b = a
    · subst hb
      simp [ctxtAllocate, pendingAt, io]
    · simp [ctxtAllocate, pendingAt, io, hb, Ne.symm hb]

theorem pendings_allocate (sd : Option Socket) (op : IoOperation) (x : Allocation) (g : Globals) :
    (ctxtAllocate sd op x g).1.pendings ≤ g.pendings := by
  refine pendings_mono (by cases x <;> rfl) fun b => ?_
  rw [pendingAt_allocate]
  split_ifs
  · exact Nat.zero_le _
  · exact Nat.le_refl _

theorem pendings_addTo (a : Addr) (g : Globals) : (ctxtListAddTo a g).pendings ≤ g.pendings := by
  have W : Within g (ctxtListAddTo a g) none := within_ctxtListAddTo a none
  refine pendings_mono W.pCtxtListenSocket fun b => ?_
  rw [pendingAt_congr (W.io nofun)]

/-- `CloseClient` waits for an operation, and ends none. -/
theorem pendingAt_closeClient (h : closeClient a g = some g') (b : Addr) :
    g'.pendingAt b = g.pendingAt b := by
  obtain ⟨io, -, -, rfl⟩ := closeClient_cases h
  have W : Within (g.closeSockets a io)
      (ctxtListRelink a ((g.closeSockets a io).enter.touch a)) none :=
    (within_enter.trans (within_touch a)).trans (within_ctxtListRelink a none)
  show (ctxtListRelink a ((g.closeSockets a io).enter.touch a)).pendingAt b = _
  rw [pendingAt_congr (W.io nofun), pendingAt, Globals.io, closeSockets_pIOContext, pendingAt,
    Globals.io]
  split_ifs
  · cases (g.ctxt b).pIOContext <;> rfl
  · rfl

theorem pendings_closeClient (h : closeClient a g = some g') : g'.pendings ≤ g.pendings :=
  pendings_mono (closeClient_spec h).1.pCtxtListenSocket fun b => (pendingAt_closeClient h b).le

end Globals

/-- Behind the wait nothing is started. -/
theorem CleanStep.pendings {g g' : Globals} {pc pc' : FinallyPc} (h : CleanStep g pc g' pc') :
    g'.pendings ≤ g.pendings := by
  cases h with
  | closed h => exact (pendings_closeClient h).trans_eq rfl
  | acceptClosed => exact (pendings_none rfl).trans_le (Nat.zero_le _)
  | _ => exact Nat.le_refl _

/-- What the steps behind the wait do to the globals that `main` cleans up. -/
theorem CleanStep.globals {g g' : Globals} {pc pc' : FinallyPc} (h : CleanStep g pc g' pc') :
    (pc ≠ .closeListen → g'.sdListen = g.sdListen) ∧ (pc = .closeListen → g'.sdListen = none) ∧
    ((∀ a, pc ≠ .closeAccept a) → g'.pCtxtListenSocket = g.pCtxtListenSocket) ∧
    (pc' = .ctxtListFree → g'.pCtxtListenSocket = none) ∧
    (pc ≠ .closePort → g'.hIocp = g.hIocp) ∧ (pc = .closePort → g'.hIocp = false) := by
  cases h with
  | closed h =>
    obtain ⟨K, -, hI, -⟩ := closeClient_spec h
    exact ⟨fun _ => K.sdListen, nofun, fun _ => K.pCtxtListenSocket, nofun, fun _ => hI, nofun⟩
  | listenClosed => exact ⟨fun h => absurd rfl h, fun _ => rfl, fun _ => rfl, nofun, fun _ => rfl, nofun⟩
  | acceptClosed =>
    exact ⟨fun _ => rfl, nofun, fun h => absurd rfl (h _), fun _ => rfl, fun _ => rfl, nofun⟩
  | noContext h => exact ⟨fun _ => rfl, nofun, fun _ => rfl, fun _ => h, fun _ => rfl, nofun⟩
  | portClosed => exact ⟨fun _ => rfl, nofun, fun _ => rfl, nofun, fun h => absurd rfl h, fun _ => rfl⟩
  | _ => exact ⟨fun _ => rfl, nofun, fun _ => rfl, nofun, fun _ => rfl, nofun⟩

theorem CleanStep.rank_lt {g g' : Globals} {pc pc' : FinallyPc} (h : CleanStep g pc g' pc') :
    22 ≤ pc.rank ∧ pc.rank ≤ pc'.rank ∧ pc'.rank ≤ 28 ∧ pc.rank < 28 := by
  cases h <;> simp

namespace RestartLoop

variable (s : RestartLoop)

/-- The accepts outstanding, completed or being served. -/
def load : ℕ := s.threads.countP LoopWorker.serving + s.g.pendings + s.queued

def threadKept (t : ℕ) : ℕ := s.closedThreads.count t + s.threadHandles.count (some t)

def portKept (p : ℕ) : ℕ := s.closedPorts.count p + place s.openPort p

/-- The wait for the threads succeeds or no thread has been created, no association fails, and a
client goes in one of the ways that keep the list. -/
def Cleans : LoopAction → Prop
  | .main (.wait r) => r = .object0 ∨ ∀ h ∈ s.threadHandles, h = none
  | .main (.call ok) => ∀ a, s.pc = .associate a → ok = true
  | .worker _ (.associate ok) => ok = true
  | .worker _ (.closeClient a) => Repaired s.listed a
  | _ => True

/-- What holds in each part of `main`. -/
structure Stage : Prop where
  quiet : s.pc.rank ≤ 6 ∨ 21 ≤ s.pc.rank → ∀ w ∈ s.threads, w = .returned
  idle : s.pc.rank ≤ 15 ∨ 28 ≤ s.pc.rank → s.load = 0
  unstarted : ∀ a, s.pc = .associate a → s.g.pendingAt a = 0
  port : 7 ≤ s.pc.rank ∧ s.pc.rank ≤ 16 → s.g.hIocp = true
  noPort : s.pc.rank ≤ 6 ∨ 28 ≤ s.pc.rank → s.g.hIocp = false
  noListen : s.pc.rank ≤ 9 ∨ 23 ≤ s.pc.rank → s.g.sdListen = none
  noContext : s.pc.rank ≤ 12 ∨ 25 ≤ s.pc.rank → s.g.pCtxtListenSocket = none

/-- The stage, with the handles of the threads and the ports. -/
structure Attended : Prop extends s.Stage where
  length : s.threadHandles.length = maxWorkerThread
  count_le : s.dwThreadCount ≤ maxWorkerThread
  entries : ∀ j t : ℕ, s.threadHandles[j]? = some (some t) → s.pc.Holds s.dwThreadCount j
  ended : ∀ t ∈ s.closedThreads, s.threads[t]? = some .returned
  load_le : s.load ≤ 1
  loaded : s.g.hIocp = false → s.load = 0
  threadsKept : FullCustody s.threads.length s.threadKept
  portsKept : FullCustody s.ports s.portKept

variable {s} {s' : RestartLoop} {pc : LoopPc} {ans : LoopAnswer} {t : ℕ} {w : LoopWorker}
  {m : WorkerMove}

/-! ## The threads -/

theorem countP_serving (h : ∀ w ∈ s.threads, w = .returned) :
    s.threads.countP LoopWorker.serving = 0 := by
  rw [List.countP_eq_zero]
  intro w hw
  rw [h w hw]
  decide

theorem countP_serving_of_load (h : s.load = 0) : s.threads.countP LoopWorker.serving = 0 := by
  unfold load at h
  omega

section Serving

variable {P : LoopWorker → Prop} (hP : ∀ w, P w → w.serving = true)

include hP

theorem not_exists_of_load (h : s.load = 0) : ¬ ∃ w ∈ s.threads, P w := by
  rintro ⟨w, hw, hp⟩
  exact List.countP_eq_zero.mp (countP_serving_of_load h) w hw (hP w hp)

/-- The worker with the accept is the only one. -/
theorem eq_of_serving (hl : s.load ≤ 1) (ht : s.threads[t]? = some w) (hw : w.serving = true) {i : ℕ}
    {x : LoopWorker} (hi : s.threads[i]? = some x) (hx : P x) : i = t := by
  by_contra hit
  have := two_le_countP ht hi (Ne.symm hit) hw (hP x hx)
  unfold load at hl
  omega

theorem exists_serving_iff (hl : s.load ≤ 1) (ht : s.threads[t]? = some w) (hw : w.serving = true) :
    (∃ x ∈ s.threads, P x) ↔ P w := by
  refine ⟨?_, fun hp => ⟨w, List.mem_of_getElem? ht, hp⟩⟩
  rintro ⟨x, hx, hp⟩
  obtain ⟨i, hi⟩ := List.getElem?_of_mem hx
  obtain rfl := eq_of_serving hP hl ht hw hi hp
  exact Option.some.inj (hi.symm.trans ht) ▸ hp

theorem exists_set_iff (hl : s.load ≤ 1) (ht : s.threads[t]? = some w) (hw : w.serving = true)
    (x : LoopWorker) : (∃ y ∈ s.threads.set t x, P y) ↔ P x := by
  refine ⟨?_, fun hp => ⟨x, List.mem_set (List.getElem?_eq_some_iff.mp ht).1 x, hp⟩⟩
  rintro ⟨y, hy, hp⟩
  obtain ⟨i, hi⟩ := List.getElem?_of_mem hy
  rcases mem_of_getElem?_set hi with ⟨-, rfl⟩ | ⟨hit, hi⟩
  · exact hp
  · exact absurd (eq_of_serving hP hl ht hw hi hp) hit

end Serving

theorem Stage.not_serving (hS : s.Stage) (ht : s.threads[t]? = some w)
    (hr : s.pc.rank ≤ 15 ∨ 21 ≤ s.pc.rank) : w.serving = false := by
  have hmem := List.mem_of_getElem? ht
  rcases hr with hr | hr
  · have := countP_serving_of_load (hS.idle (.inl hr))
    simpa using List.countP_eq_zero.mp this w hmem
  · rw [hS.quiet (.inr hr) w hmem]
    rfl

/-- A worker runs between the creation of the port and the end of the wait. -/
theorem Stage.running (hS : s.Stage) (ht : s.threads[t]? = some w) (hw : w ≠ .returned) :
    6 < s.pc.rank ∧ s.pc.rank < 21 := by
  by_contra h
  exact hw (hS.quiet (by omega) w (List.mem_of_getElem? ht))

/-! ## A step of a worker -/

/-- What a worker leaves alone. -/
structure WorkerFrame (s s' : RestartLoop) : Prop where
  pc : s'.pc = s.pc
  dwThreadCount : s'.dwThreadCount = s.dwThreadCount
  threadHandles : s'.threadHandles = s.threadHandles
  closedThreads : s'.closedThreads = s.closedThreads
  sdListen : s'.g.sdListen = s.g.sdListen
  pCtxtListenSocket : s'.g.pCtxtListenSocket = s.g.pCtxtListenSocket
  length : s'.threads.length = s.threads.length
  returned : ∀ i : ℕ, s.threads[i]? = some .returned → s'.threads[i]? = some .returned

theorem getElem?_set_returned {x : LoopWorker} (ht : s.threads[t]? = some w) (hw : w ≠ .returned)
    (i : ℕ) (hi : s.threads[i]? = some .returned) : (s.threads.set t x)[i]? = some .returned := by
  have hti : t ≠ i := by
    rintro rfl
    exact hw (Option.some.inj (ht.symm.trans hi))
  rw [List.getElem?_set_ne hti, hi]

theorem createAccept_listen {g g' : Globals} {ok : Bool} (h : g.createAccept ok = some g') :
    g'.sdListen = g.sdListen ∧ g'.pCtxtListenSocket = g.pCtxtListenSocket ∧ g'.hIocp = g.hIocp := by
  obtain ⟨a, io, -, -, rfl⟩ := Globals.createAccept_cases h
  cases ok <;> exact ⟨rfl, rfl, rfl⟩

theorem acceptEx_listen {g g' : Globals} {started : Bool} (h : g.acceptEx started = some g') :
    g'.sdListen = g.sdListen ∧ g'.pCtxtListenSocket = g.pCtxtListenSocket ∧ g'.hIocp = g.hIocp := by
  obtain ⟨a, io, -, -, rfl⟩ := Globals.acceptEx_cases h
  cases started <;> exact ⟨rfl, rfl, rfl⟩

theorem LoopWorkerStep.frame (h : LoopWorkerStep s t w m s') (ht : s.threads[t]? = some w) :
    WorkerFrame s s' := by
  cases h with
  | closed _ _ hg =>
    have K := (closeClient_spec hg).1
    exact ⟨rfl, rfl, rfl, rfl, K.sdListen, K.pCtxtListenSocket, rfl, fun _ hi => hi⟩
  | allocated =>
    obtain ⟨h₁, h₂, -⟩ := ctxtAllocate_globals _ _ _ _
    exact ⟨rfl, rfl, rfl, rfl, h₂, h₁, List.length_set, getElem?_set_returned ht nofun⟩
  | @added c =>
    have W : Within s.g (ctxtListAddTo c s.g) none := within_ctxtListAddTo c none
    exact ⟨rfl, rfl, rfl, rfl, W.sdListen, W.pCtxtListenSocket, List.length_set,
      getElem?_set_returned ht nofun⟩
  | created hg | createFailed hg =>
    obtain ⟨h₁, h₂, -⟩ := createAccept_listen hg
    exact ⟨rfl, rfl, rfl, rfl, h₁, h₂, List.length_set, getElem?_set_returned ht nofun⟩
  | acceptEx hg =>
    obtain ⟨h₁, h₂, -⟩ := acceptEx_listen hg
    exact ⟨rfl, rfl, rfl, rfl, h₁, h₂, List.length_set, getElem?_set_returned ht nofun⟩
  | _ => exact ⟨rfl, rfl, rfl, rfl, rfl, rfl, List.length_set, getElem?_set_returned ht nofun⟩

/-- A worker without the accept leaves the port and the outstanding operations alone. -/
theorem LoopWorkerStep.plain (h : LoopWorkerStep s t w m s') (hw : w.serving = false) :
    s'.g.hIocp = s.g.hIocp ∧ ∀ b, s'.g.pendingAt b = s.g.pendingAt b := by
  cases h with
  | quit | endServer | dequeue | setEvent => exact ⟨rfl, fun _ => rfl⟩
  | closed _ _ hg => exact ⟨(closeClient_spec hg).2.2.1, pendingAt_closeClient hg⟩
  | _ => cases hw

/-- Only an association has to do with the port. -/
theorem LoopWorkerStep.hIocp (h : LoopWorkerStep s t w m s') (hm : ∀ ok, m ≠ .associate ok) :
    s'.g.hIocp = s.g.hIocp := by
  cases h with
  | associated | associateFailed => exact absurd rfl (hm _)
  | @allocated x => cases x <;> rfl
  | @added c =>
    have W : Within s.g (ctxtListAddTo c s.g) none := within_ctxtListAddTo c none
    exact W.hIocp
  | created hg | createFailed hg => exact (createAccept_listen hg).2.2
  | acceptEx hg => exact (acceptEx_listen hg).2.2
  | closed _ _ hg => exact (closeClient_spec hg).2.2.1
  | _ => rfl

theorem LoopWorkerStep.port (h : LoopWorkerStep s t w m s') (hC : s.Cleans (.worker t m)) :
    s'.g.hIocp = s.g.hIocp ∨ s'.g.hIocp = true := by
  have hI := h.hIocp
  cases h with
  | associated => exact .inr rfl
  | associateFailed => cases hC
  | _ => exact .inl (hI nofun)

/-- **A worker does not add to the load.** -/
theorem LoopWorkerStep.load_le (h : LoopWorkerStep s t w m s') (ht : s.threads[t]? = some w) :
    s'.load ≤ s.load := by
  have hset := fun x => countP_set_add LoopWorker.serving ht x
  unfold load
  cases h with
  | quit =>
    have := hset .returned
    simp [LoopWorker.serving] at this ⊢
    omega
  | endServer hq =>
    have := hset .returned
    simp [LoopWorker.serving] at this ⊢
    omega
  | dequeue hq =>
    have := hset .accepted
    simp [LoopWorker.serving] at this ⊢
    omega
  | gaveUp =>
    have := hset .setEvent
    simp [LoopWorker.serving] at this ⊢
    omega
  | @allocated x _ io c =>
    have := hset (.associate c)
    have := pendings_allocate io.socketAccept .clientIoAccept x s.g
    simp [LoopWorker.serving] at *
    omega
  | noMemory =>
    have := hset .setEvent
    have : s.g.enter.pendings = s.g.pendings := rfl
    simp [LoopWorker.serving] at *
    omega
  | @associated c =>
    have := hset (.addTo c)
    have : s.associatePort.g.pendings = s.g.pendings := rfl
    simp [associatePort, LoopWorker.serving] at *
    omega
  | @associateFailed c =>
    have := hset .setEvent
    have : (s.loseAssociation c).g.pendings = s.g.pendings := rfl
    simp [loseAssociation, LoopWorker.serving] at *
    omega
  | @added c =>
    have := hset (.prepare c)
    have := pendings_addTo c s.g
    simp [LoopWorker.serving] at *
    omega
  | @prepared c =>
    have := hset (.createSocket c)
    simp [LoopWorker.serving] at this ⊢
    omega
  | created hg =>
    have := hset .acceptEx
    have := pendings_createAccept hg
    simp [LoopWorker.serving] at *
    omega
  | createFailed hg =>
    have := hset .setEvent
    have := pendings_createAccept hg
    simp [LoopWorker.serving] at *
    omega
  | @acceptEx g =>
    have := hset .getStatus
    have := g.pendings_le
    simp [LoopWorker.serving] at *
    omega
  | setEvent =>
    have := hset .returned
    simp [LoopWorker.serving] at this ⊢
    omega
  | closed _ _ hg =>
    have := pendings_closeClient hg
    simp only
    omega

theorem Stage.worker (hS : s.Stage) (h : LoopWorkerStep s t w m s') (ht : s.threads[t]? = some w)
    (hC : s.Cleans (.worker t m)) : s'.Stage := by
  have hf := h.frame ht
  have hplain := fun hr => h.plain (hS.not_serving ht hr)
  constructor <;> rw [hf.pc]
  case quiet =>
    intro hr x hx
    obtain ⟨i, hi⟩ := List.getElem?_of_mem hx
    have hlt : i < s.threads.length := hf.length ▸ (List.getElem?_eq_some_iff.mp hi).1
    have hret : s.threads[i]? = some .returned :=
      List.getElem?_eq_some_iff.mpr ⟨hlt, hS.quiet hr _ (List.getElem_mem hlt)⟩
    exact Option.some.inj (hi.symm.trans (hf.returned i hret))
  case idle => exact fun hr => Nat.le_zero.mp (hS.idle hr ▸ h.load_le ht)
  case unstarted =>
    intro a ha
    rw [(hplain (.inl (by rw [ha]; exact Nat.le_of_ble_eq_true rfl))).2]
    exact hS.unstarted a ha
  case port =>
    intro hr
    rcases h.port hC with hI | hI
    · exact hI.trans (hS.port hr)
    · exact hI
  case noPort => exact fun hr => (hplain (by omega)).1.trans (hS.noPort hr)
  case noListen => exact fun hr => hf.sdListen.trans (hS.noListen hr)
  case noContext => exact fun hr => hf.pCtxtListenSocket.trans (hS.noContext hr)

theorem portKept_congr (hI : s'.g.hIocp = s.g.hIocp) (hp : s'.port = s.port)
    (hc : s'.closedPorts = s.closedPorts) (q : ℕ) : s'.portKept q = s.portKept q := by
  unfold portKept openPort
  rw [hI, hp, hc]

theorem associatePort_kept (h : FullCustody s.ports s.portKept) :
    FullCustody s.associatePort.ports s.associatePort.portKept := by
  cases hI : s.g.hIocp with
  | true =>
    have hports : s.associatePort.ports = s.ports := if_pos hI
    rw [hports]
    exact h.move fun q => by simp [portKept, openPort, associatePort, hI]
  | false =>
    have hports : s.associatePort.ports = s.ports + 1 := if_neg (by simp [hI])
    rw [hports]
    exact h.make fun q => by simp [portKept, openPort, associatePort, hI]

/-- **A step of a worker.** -/
theorem Attended.worker (hA : s.Attended) (h : LoopWorkerStep s t w m s')
    (ht : s.threads[t]? = some w) (hC : s.Cleans (.worker t m)) : s'.Attended where
  toStage := hA.toStage.worker h ht hC
  length := (h.frame ht).threadHandles ▸ hA.length
  count_le := (h.frame ht).dwThreadCount ▸ hA.count_le
  entries := by
    rw [(h.frame ht).threadHandles, (h.frame ht).pc, (h.frame ht).dwThreadCount]
    exact hA.entries
  ended := by
    rw [(h.frame ht).closedThreads]
    exact fun i hi => (h.frame ht).returned i (hA.ended i hi)
  load_le := (h.load_le ht).trans hA.load_le
  loaded := by
    intro hI
    rcases h.port hC with hI' | hI'
    · exact Nat.le_zero.mp (hA.loaded (hI'.symm.trans hI) ▸ h.load_le ht)
    · cases hI.symm.trans hI'
  threadsKept := by
    rw [(h.frame ht).length]
    refine hA.threadsKept.move fun i => ?_
    rw [threadKept, (h.frame ht).closedThreads, (h.frame ht).threadHandles]
    rfl
  portsKept := by
    have hI := h.hIocp
    cases h with
    | associateFailed => cases hC
    | associated => exact associatePort_kept hA.portsKept
    | _ => exact hA.portsKept.move (portKept_congr (hI nofun) rfl rfl)

/-! ## A step of `main` -/

/-- Where the jumps lead: over the test of `g_bRestart`, forward up to the wait for the threads, and
behind the loop that closes their handles. -/
theorem Jump.rank (h : s.Jump pc pc') :
    (pc.rank ≤ 6 ∨ 28 ≤ pc.rank) ∧ (pc'.rank ≤ 6 ∨ 28 ≤ pc'.rank) ∨
      7 ≤ pc.rank ∧ pc.rank ≤ pc'.rank ∧ pc'.rank ≤ 20 ∨ pc.rank = 21 ∧ pc'.rank = 22 := by
  cases h <;> simp

/-- A thread whose handle is not closed has it in `g_ThreadHandles`. -/
theorem Attended.returned_of_wait (hA : s.Attended) (hpc : s.pc = .rest .waitThreads)
    (h : ∀ t : ℕ, some t ∈ s.waited → t < s.threads.length → s.threads[t]? = some .returned) :
    ∀ w ∈ s.threads, w = .returned := by
  intro w hw
  obtain ⟨t, ht⟩ := List.getElem?_of_mem hw
  have hlt := (List.getElem?_eq_some_iff.mp ht).1
  have hone := hA.threadsKept.eq_one hlt
  by_cases hc : t ∈ s.closedThreads
  · exact Option.some.inj (ht.symm.trans (hA.ended t hc))
  · have hpos : 0 < s.threadHandles.count (some t) := by
      rw [threadKept, List.count_eq_zero.mpr hc] at hone
      omega
    obtain ⟨j, hj⟩ := List.getElem?_of_mem (List.count_pos_iff.mp hpos)
    have hholds := hA.entries j t hj
    rw [hpc] at hholds
    have hmem : some t ∈ s.waited :=
      List.mem_of_getElem? ((List.getElem?_take_of_lt hholds.2.2).trans hj)
    exact Option.some.inj (ht.symm.trans (h t hmem hlt))

theorem LoopStep.quiet (h : LoopStep s pc ans s') (hpc : s.pc = pc) (hA : s.Attended)
    (hC : s.Cleans (.main ans)) (hr : s'.pc.rank ≤ 6 ∨ 21 ≤ s'.pc.rank) :
    ∀ w ∈ s'.threads, w = .returned := by
  have hold := hA.quiet
  rw [hpc] at hold
  cases h with
  | jump h =>
    have := h.rank
    dsimp only at hr
    exact hold (by omega)
  | cleaned h => exact hold (.inr (by have := h.rank_lt; simp only [LoopPc.rank]; omega))
  | ended hw => exact hA.returned_of_wait hpc fun t ht hlt => hw.2 t hlt ht
  | notEnded hne =>
    rcases hC with rfl | hnone
    · exact absurd rfl hne
    · refine hA.returned_of_wait hpc fun t ht _ => ?_
      cases hnone _ (List.mem_of_mem_take ht)
  | _ => first | (simp at hr; done) | exact hold (by simp)

theorem LoopStep.noListen (h : LoopStep s pc ans s') (hpc : s.pc = pc) (hS : s.Stage)
    (hr : s'.pc.rank ≤ 9 ∨ 23 ≤ s'.pc.rank) : s'.g.sdListen = none := by
  have hold := hS.noListen
  rw [hpc] at hold
  cases h with
  | jump h =>
    have := h.rank
    dsimp only at hr
    exact hold (by omega)
  | @cleaned pc' _ _ _ h =>
    obtain ⟨h₁, h₂, -⟩ := h.globals
    have hlt := h.rank_lt
    by_cases hl : pc' = .closeListen
    · exact h₂ hl
    · refine (h₁ hl).trans (hold (.inr ?_))
      cases h <;> simp at hl ⊢
  | _ => first | (simp at hr; done) | exact hold (by simp)

theorem LoopStep.noContext (h : LoopStep s pc ans s') (hpc : s.pc = pc) (hS : s.Stage)
    (hr : s'.pc.rank ≤ 12 ∨ 25 ≤ s'.pc.rank) : s'.g.pCtxtListenSocket = none := by
  have hold := hS.noContext
  rw [hpc] at hold
  cases h with
  | jump h =>
    have := h.rank
    dsimp only at hr
    exact hold (by omega)
  | allocated => exact (ctxtAllocate_globals _ _ _ _).1.trans (hold (by simp))
  | @cleaned _ _ _ pc' h =>
    obtain ⟨-, -, h₁, h₂, -⟩ := h.globals
    by_cases hl : pc' = .ctxtListFree
    · exact h₂ hl
    · refine (h₁ ?_).trans (hold ?_) <;>
        cases h <;> simp at hl hr ⊢
  | _ => first | (simp at hr; done) | exact hold (by simp)

theorem LoopStep.noPort (h : LoopStep s pc ans s') (hpc : s.pc = pc) (hS : s.Stage)
    (hr : s'.pc.rank ≤ 6 ∨ 28 ≤ s'.pc.rank) : s'.g.hIocp = false := by
  have hold := hS.noPort
  rw [hpc] at hold
  cases h with
  | jump h =>
    have := h.rank
    dsimp only at hr
    exact hold (by omega)
  | @cleaned pc' _ _ _ h =>
    obtain ⟨-, -, -, -, -, h₂⟩ := h.globals
    have hp : pc' = .closePort := by cases h <;> simp at hr ⊢
    exact h₂ hp
  | _ => first | (simp at hr; done) | exact hold (by simp)

theorem LoopStep.port (h : LoopStep s pc ans s') (hpc : s.pc = pc) (hS : s.Stage)
    (hr : 7 ≤ s'.pc.rank ∧ s'.pc.rank ≤ 16) : s'.g.hIocp = true := by
  have hold := hS.port
  rw [hpc] at hold
  cases h with
  | jump h =>
    have := h.rank
    dsimp only at hr
    exact hold (by omega)
  | portCreated | associated => rfl
  | @allocated _ x _ => cases x <;> exact hold (by simp)
  | created h => exact (createAccept_listen h).2.2.trans (hold (by simp))
  | acceptEx h => exact (acceptEx_listen h).2.2.trans (hold (by simp))
  | cleaned h =>
    have := h.rank_lt
    have hr' : LoopPc.rank (.rest _) ≤ 16 := hr.2
    simp only [LoopPc.rank] at hr'
    omega
  | _ => first | (simp at hr; done) | exact hold (by simp)

/-- `main` adds to the load with its AcceptEx only. -/
theorem LoopStep.load_le (h : LoopStep s pc ans s') (hpc : s.pc = pc) (hS : s.Stage)
    (ha : pc ≠ .acceptEx) : s'.load ≤ s.load := by
  unfold load
  cases h with
  | acceptEx => exact absurd rfl ha
  | threadCreated => simp [LoopWorker.serving]
  | @allocated _ x =>
    have := pendings_allocate s.g.sdListen .clientIoAccept x s.g
    simp only
    omega
  | noMemory =>
    have := pendings_none (g := s.g.enter.setCtxtListenSocket none) rfl
    simp only
    omega
  | @associated a =>
    have := hS.unstarted a hpc
    have : (s.associatePort.g.setCtxtListenSocket (some a)).pendings = s.g.pendingAt a := rfl
    simp only [associatePort] at *
    omega
  | @associateFailed a =>
    have := pendings_none (g := (s.loseAssociation a).g.setCtxtListenSocket none) rfl
    simp only [loseAssociation] at *
    omega
  | created h | createFailed h =>
    have := pendings_createAccept h
    simp only
    omega
  | @cleaned pc' _ _ _ h =>
    have := h.pendings
    have : (if pc' = .closePort ∧ s.g.hIocp = true then 0 else s.queued) ≤ s.queued := by
      split_ifs <;> omega
    simp only [record]
    omega
  | _ => exact Nat.le_refl _

theorem LoopStep.load_acceptEx (h : LoopStep s .acceptEx ans s') : s'.load ≤ s.load + 1 := by
  cases h with
  | jump h => cases h
  | @acceptEx _ g =>
    have := g.pendings_le
    simp only [load]
    omega

/-- Nothing is left of the accept as the port is closed. -/
theorem Stage.load_closePort (hS : s.Stage) (hpc : s.pc = .rest .closePort) : s.load = s.queued := by
  have hquiet := hS.quiet (.inr (by rw [hpc]; decide))
  have hnone := hS.noContext (.inr (by rw [hpc]; decide))
  rw [load, countP_serving hquiet, pendings_none hnone, Nat.zero_add]

/-- The port is closed, with what is in it. -/
theorem Attended.load_closed (hA : s.Attended) {g : Globals} {pc' : FinallyPc}
    (hpc : s.pc = .rest .closePort) (h : CleanStep s.g .closePort g pc') :
    load { s.record .closePort with g := g, pc := .rest pc' } = 0 := by
  have hquiet := hA.quiet (.inr (by rw [hpc]; decide))
  have hnone := hA.noContext (.inr (by rw [hpc]; decide))
  have hload := hA.load_closePort hpc
  cases h with
  | portClosed =>
    have hpend : (s.g.setIocp false).pendings = 0 := pendings_none hnone
    have hqueued : (if s.g.hIocp = true then 0 else s.queued) = 0 := by
      split_ifs with hI
      · rfl
      · exact hload ▸ hA.loaded (by simpa using hI)
    simp [load, record, countP_serving hquiet, hpend, hqueued]

theorem LoopStep.idle (h : LoopStep s pc ans s') (hpc : s.pc = pc) (hA : s.Attended)
    (hr : s'.pc.rank ≤ 15 ∨ 28 ≤ s'.pc.rank) : s'.load = 0 := by
  have hold := hA.idle
  rw [hpc] at hold
  by_cases ha : pc = .acceptEx
  · subst ha
    cases h with
    | jump h => cases h
    | acceptEx => simp at hr
  · have hle := h.load_le hpc hA.toStage ha
    have hzero : s.load = 0 → s'.load = 0 := fun h0 => Nat.le_zero.mp (h0 ▸ hle)
    cases h with
    | jump h =>
      have := h.rank
      dsimp only at hr
      exact hzero (hold (by omega))
    | @cleaned pc' _ _ _ h =>
      have hp : pc' = .closePort := by
        have := h.rank_lt
        cases h <;> simp at hr ⊢
      subst hp
      exact hA.load_closed hpc h
    | _ =>
      first
        | (simp at hr; done)
        | exact hzero (hold (by simp))

theorem LoopStep.loaded (h : LoopStep s pc ans s') (hpc : s.pc = pc) (hA : s.Attended)
    (hC : s.Cleans (.main ans)) (hI : s'.g.hIocp = false) : s'.load = 0 := by
  by_cases ha : pc = .acceptEx
  · subst ha
    cases h with
    | jump h => cases h
    | acceptEx h =>
      rw [show _ = s.g.hIocp from (acceptEx_listen h).2.2] at hI
      cases hI.symm.trans (hA.port (by rw [hpc]; decide))
  · have hle := h.load_le hpc hA.toStage ha
    have hzero : s.load = 0 → s'.load = 0 := fun h0 => Nat.le_zero.mp (h0 ▸ hle)
    cases h with
    | portFailed => exact hzero (hA.idle (by rw [hpc]; decide))
    | portCreated | associated => cases hI
    | associateFailed => cases hC _ hpc
    | @allocated _ x => cases x <;> exact hzero (hA.loaded hI)
    | created h | createFailed h => exact hzero (hA.loaded ((createAccept_listen h).2.2.symm.trans hI))
    | acceptEx => exact absurd rfl ha
    | @cleaned pc' _ _ _ h =>
      by_cases hp : pc' = .closePort
      · subst hp
        exact hA.load_closed hpc h
      · exact hzero (hA.loaded ((h.globals.2.2.2.2.1 hp).symm.trans hI))
    | _ => exact hzero (hA.loaded hI)

theorem LoopStep.unstarted (h : LoopStep s pc ans s') (hpc : s.pc = pc) (a : Addr)
    (ha : s'.pc = .associate a) : s'.g.pendingAt a = 0 := by
  cases h with
  | jump h => cases h <;> cases ha
  | allocated hx hc =>
    obtain rfl := LoopPc.associate.inj ha
    exact (pendingAt_allocate _ _ _ _ _).trans (if_pos hc)
  | _ => cases ha

theorem LoopStep.entries (h : LoopStep s pc ans s') (hpc : s.pc = pc) (hA : s.Attended)
    (hC : s.Cleans (.main ans)) (j t : ℕ) (hj : s'.threadHandles[j]? = some (some t)) :
    s'.pc.Holds s'.dwThreadCount j := by
  have hold := hA.entries j t
  rw [hpc] at hold
  cases h with
  | jump h =>
    have := hold hj
    cases h <;> simp [LoopPc.Holds] at this ⊢ <;> omega
  | @threadCreated k _ hk =>
    rcases mem_of_getElem?_set hj with ⟨rfl, -⟩ | ⟨-, hj⟩
    · exact ⟨Nat.lt_succ_self _, hk⟩
    · exact ⟨Nat.lt_succ_of_lt (hold hj).1, (hold hj).2⟩
  | ended => exact ⟨Nat.zero_le _, (hold hj).2.2⟩
  | notEnded hne =>
    rcases hC with rfl | hnone
    · exact absurd rfl hne
    · cases hnone _ (List.mem_of_getElem? hj)
  | threadClosed hi =>
    rcases mem_of_getElem?_set hj with ⟨-, hj⟩ | ⟨hji, hj⟩
    · cases hj
    · have := hold hj
      exact ⟨by have := this.1; omega, this.2⟩
  | associated =>
    obtain ⟨-, -, hlt⟩ := hold hj
    exact ⟨Nat.le_add_left 8 5, Nat.le_add_right 13 7, hlt⟩
  | associateFailed =>
    obtain ⟨-, -, hlt⟩ := hold hj
    exact ⟨Nat.le_add_left 8 9, Nat.le_add_right 17 3, hlt⟩
  | cleaned h =>
    obtain ⟨-, hle, -⟩ := hold hj
    have := h.rank_lt
    simp only [LoopPc.rank] at hle
    omega
  | _ =>
    have := hold hj
    simp [LoopPc.Holds] at this ⊢
    try omega

/-- The entry `j` of `g_ThreadHandles`. -/
theorem Attended.getElem (hA : s.Attended) {j : ℕ} (hj : j < s.dwThreadCount) :
    ∃ x, s.threadHandles[j]? = some x :=
  ⟨_, List.getElem?_eq_getElem (by have := hA.length; have := hA.count_le; omega)⟩

theorem LoopStep.threads (h : LoopStep s pc ans s') (hpc : s.pc = pc) (hA : s.Attended) :
    FullCustody s'.threads.length s'.threadKept := by
  cases h with
  | @threadCreated k _ hk =>
    obtain ⟨x, hx⟩ := hA.getElem hk
    have hnone : x = none := by
      cases x with
      | none => rfl
      | some t =>
        have := hA.entries k t hx
        rw [hpc] at this
        exact absurd this.1 (Nat.lt_irrefl k)
    subst hnone
    rw [show (s.threads ++ [LoopWorker.getStatus]).length = s.threads.length + 1 from
      List.length_append]
    refine hA.threadsKept.make fun t => ?_
    have := countP_set_add (· == some t) hx (some s.threads.length)
    simp only [threadKept, List.count, place] at this ⊢
    simp at this ⊢
    omega
  | @threadClosed i _ hi =>
    obtain ⟨x, hx⟩ := hA.getElem hi
    refine hA.threadsKept.move fun t => ?_
    have hset := countP_set_add (· == some t) hx none
    simp only [threadKept, hx, Option.bind_some, id, count_append_toList, place]
    simp [List.count] at hset ⊢
    omega
  | _ => exact hA.threadsKept

theorem LoopStep.closed_ended (h : LoopStep s pc ans s') (hpc : s.pc = pc) (hA : s.Attended) :
    ∀ t ∈ s'.closedThreads, s'.threads[t]? = some .returned := by
  cases h with
  | threadCreated =>
    intro t ht
    have := hA.ended t ht
    exact (List.getElem?_append_left (List.getElem?_eq_some_iff.mp this).1).trans this
  | @threadClosed i _ hi =>
    intro t ht
    rcases List.mem_append.mp ht with ht | ht
    · exact hA.ended t ht
    · obtain ⟨x, hx, rfl⟩ := Option.bind_eq_some_iff.mp (Option.mem_toList.mp ht)
      have hpos : 0 < s.threadKept t :=
        Nat.add_pos_right _ (List.count_pos_iff.mpr (List.mem_of_getElem? hx))
      have hlt := hA.threadsKept.custody.lt hpos
      rw [List.getElem?_eq_getElem hlt]
      exact congrArg some (hA.quiet (.inr (by rw [hpc]; exact Nat.le_refl 21)) _ (List.getElem_mem hlt))
  | _ => exact hA.ended

theorem LoopStep.ports (h : LoopStep s pc ans s') (hpc : s.pc = pc) (hA : s.Attended)
    (hC : s.Cleans (.main ans)) : FullCustody s'.ports s'.portKept := by
  have hkept := hA.portsKept
  cases h with
  | portCreated =>
    have hnone := hA.noPort (by rw [hpc]; decide)
    exact hkept.make fun p => by simp [portKept, openPort, createPort, hnone]
  | portFailed =>
    have hnone := hA.noPort (by rw [hpc]; decide)
    exact hkept.move fun p => by simp [portKept, openPort, hnone]
  | associated => exact associatePort_kept hkept
  | associateFailed => cases hC _ hpc
  | @allocated _ x => cases x <;> exact hkept
  | created h | createFailed h =>
    exact hkept.move (portKept_congr (createAccept_listen h).2.2 rfl rfl)
  | acceptEx h => exact hkept.move (portKept_congr (acceptEx_listen h).2.2 rfl rfl)
  | @cleaned pc' _ _ _ h =>
    obtain ⟨-, -, -, -, hI, hI'⟩ := h.globals
    by_cases hp : pc' = .closePort
    · refine hkept.move fun p => ?_
      simp only [portKept, record, if_pos hp, count_append_toList, openPort, hI' hp]
      simp
    · exact hkept.move (portKept_congr (hI hp) rfl (if_neg hp))
  | _ => exact hkept

theorem LoopStep.lengths (h : LoopStep s pc ans s') :
    s'.threadHandles.length = s.threadHandles.length ∧ s'.dwThreadCount = s.dwThreadCount := by
  cases h with
  | threadCreated | threadClosed => exact ⟨List.length_set, rfl⟩
  | _ => exact ⟨rfl, rfl⟩

/-- **A step of `main`.** -/
theorem Attended.main (hA : s.Attended) (h : LoopStep s s.pc ans s') (hC : s.Cleans (.main ans)) :
    s'.Attended where
  quiet := h.quiet rfl hA hC
  idle := h.idle rfl hA
  unstarted := h.unstarted rfl
  port := h.port rfl hA.toStage
  noPort := h.noPort rfl hA.toStage
  noListen := h.noListen rfl hA.toStage
  noContext := h.noContext rfl hA.toStage
  length := h.lengths.1.trans hA.length
  count_le := h.lengths.2 ▸ hA.count_le
  entries := h.entries rfl hA hC
  ended := h.closed_ended rfl hA
  load_le := by
    by_cases ha : s.pc = .acceptEx
    · rw [ha] at h
      have := h.load_acceptEx
      have := hA.idle (by rw [ha]; decide)
      omega
    · exact (h.load_le rfl hA.toStage ha).trans hA.load_le
  loaded := h.loaded rfl hA hC
  threadsKept := h.threads rfl hA
  portsKept := h.ports rfl hA hC

/-! ## The other steps -/

theorem attended_initial {n : UInt32} (hn : (initial n).dwThreadCount ≤ maxWorkerThread) :
    (initial n).Attended where
  quiet _ := nofun
  idle _ := rfl
  unstarted _ h := by cases h
  port h := by simp [initial] at h
  noPort _ := rfl
  noListen _ := rfl
  noContext _ := rfl
  length := List.length_replicate
  count_le := hn
  entries j t hj := by
    cases (List.eq_of_mem_replicate (List.mem_of_getElem? hj))
  ended := nofun
  load_le := Nat.zero_le 1
  loaded _ := rfl
  threadsKept t := by simp [threadKept, initial, List.count_replicate]
  portsKept p := by simp [portKept, openPort, initial]

theorem load_completed {a : Addr} {io : PerIoContext} (ha : s.g.pCtxtListenSocket = some a)
    (hio : s.g.io a = some io) (hp : io.pending = true) : (s.completed a).load = s.load := by
  have h₁ := pendings_of_listening ha
  have h₂ := pendings_of_listening (g := s.g.modifyIo a fun io => { io with pending := false }) ha
  rw [pendingAt, hio] at h₁
  rw [pendingAt, io_modifyIo_self hio] at h₂
  simp only [Option.map_some, Option.getD_some, hp, Bool.toNat_true, Bool.toNat_false] at h₁ h₂
  simp only [load, completed]
  omega

theorem Attended.complete (hA : s.Attended) {a : Addr} {io : PerIoContext}
    (ha : s.g.pCtxtListenSocket = some a) (hio : s.g.io a = some io) (hp : io.pending = true) :
    (s.completed a).Attended := by
  have hload := load_completed ha hio hp
  have hno : ¬ (s.pc.rank ≤ 12 ∨ 25 ≤ s.pc.rank) := fun hr => by
    rw [hA.noContext hr] at ha
    cases ha
  exact { hA with
    idle := fun hr => hload.trans (hA.idle hr)
    unstarted := fun b hb => absurd (.inl (by rw [show s.pc = _ from hb]; exact Nat.le_refl 12)) hno
    noContext := fun hr => absurd hr hno
    load_le := hload.trans_le hA.load_le
    loaded := fun hI => hload.trans (hA.loaded hI) }

theorem Step.dwThreadCount {a : LoopAction} (h : Step s a s') :
    s'.dwThreadCount = s.dwThreadCount := by
  cases h with
  | main h => exact h.lengths.2
  | worker ht h => exact (h.frame ht).dwThreadCount
  | event => rfl
  | @handler i x => cases x <;> rfl
  | complete => rfl

theorem Attended.step {a : LoopAction} (hA : s.Attended) (hC : s.Cleans a) (h : Step s a s') :
    s'.Attended := by
  cases h with
  | main h => exact hA.main h hC
  | worker ht h => exact hA.worker h ht hC
  | event => exact { hA with }
  | @handler i x => cases x <;> exact { hA with }
  | complete ha hio hp => exact hA.complete ha hio hp

end RestartLoop

end SelfStudy.Iocp
