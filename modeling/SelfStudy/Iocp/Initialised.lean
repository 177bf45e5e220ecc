import SelfStudy.Iocp.Ownership

/-!
# The contexts that are handed on

`CtxtAllocate` hands its context to `CreateIoCompletionPort`, and `UpdateCompletionPort` to
`CtxtListAddTo` and to the caller, and none of them looks at it. Without memory for the I/O context
`CtxtAllocate` returns the block it has just freed. So what is handed on is initialised all along a
run exactly if no `xmalloc` of a `PER_IO_CONTEXT` fails in it (`handed_initialised_iff`).
-/

namespace SelfStudy.Iocp

open Lib Globals

/-- `a` is a live socket context with one I/O context, which is as `CtxtAllocate` initialises it. -/
def Globals.Initialised (g : Globals) (a : Addr) : Prop :=
  g.live a = true ∧ (g.ctxt a).pIOContext = [.initial .clientIoAccept]

/-- The context that `CtxtAllocate` has returned to the worker, that is registered as a completion
key, or that is linked into the list, until the worker writes to it. -/
def WorkerPc.handed : WorkerPc → Option Addr
  | .associate _ _ _ c | .addTo _ _ c | .prepare _ _ c => some c
  | _ => none

/-- The same for a worker or `main`. -/
def Server.Handed (s : Server) (a : Addr) : Prop :=
  s.main = .associate a ∨ s.main = .ioctl ∧ s.y.g.pCtxtListenSocket = some a ∨
    ∃ pc ∈ s.workers, pc.handed = some a

/-- The heap gives a `PER_IO_CONTEXT` whenever it is asked for one. -/
def Action.GivesIoContext : Action → Prop
  | .worker _ (.heap x) | .main (.heap x) => ∀ a, x ≠ .noIoContext a
  | _ => True

theorem WorkerPc.client_of_handed {pc : WorkerPc} {a : Addr} (h : pc.handed = some a) :
    pc.client = some a := by
  cases pc with
  | associate k n sd c | addTo k n c | prepare k n c => exact h
  | _ => cases h

/-! ## One I/O context each -/

namespace Globals

/-- No socket context has more than one I/O context. -/
def Single (g : Globals) : Prop := ∀ a, (g.ctxt a).pIOContext.length ≤ 1

variable {g g' : Globals} {a : Addr}

theorem Single.eq {io : PerIoContext} (h : g.Single) (hio : g.io a = some io) :
    (g.ctxt a).pIOContext = [io] := by
  have hlen := h a
  obtain ⟨ios, hios⟩ := List.head?_eq_some_iff.mp hio
  rw [hios, List.length_cons] at hlen
  obtain rfl : ios = [] := List.eq_nil_of_length_eq_zero (by omega)
  exact hios

theorem initialised_of_io (h : g.Single) (hl : g.live a = true)
    (hio : g.io a = some (.initial .clientIoAccept)) : g.Initialised a := ⟨hl, h.eq hio⟩

theorem Initialised.io (h : g.Initialised a) : g.io a = some (.initial .clientIoAccept) := by
  rw [Globals.io, h.2]
  rfl

theorem not_initialised (h : g.live a = false) : ¬ g.Initialised a := by
  intro hI
  rw [hI.1] at h
  cases h

theorem Initialised.agree (h : g.Initialised a) (A : g.Agree g' a) (h' : g'.Single) :
    g'.Initialised a :=
  initialised_of_io h' (A.live.trans h.1) (A.io.trans h.io)

theorem Single.keeps (h : g.Single) (K : Keeps g g' none) : g'.Single := by
  intro b
  rw [K.pIOContext b nofun]
  exact h b

theorem Single.modifyIo (h : g.Single) (a : Addr) (f : PerIoContext → PerIoContext) :
    (g.modifyIo a f).Single := by
  intro b
  rw [Globals.modifyIo, ctxt_modify_pIOContext]
  split_ifs
  · rw [List.length_modifyHead]
    exact h b
  · exact h b

theorem Single.allocate (h : g.Single) (sd : Option Socket) (o : IoOperation) (x : Allocation) :
    (ctxtAllocate sd o x g).1.Single := by
  intro b
  cases x with
  | noSocketContext => exact h b
  | ok a =>
    by_cases e : b = a
    · simp [ctxtAllocate, e]
    · simpa [ctxtAllocate, e] using h b
  | noIoContext a =>
    by_cases e : b = a
    · simp [ctxtAllocate, e]
    · simpa [ctxtAllocate, e] using h b

theorem Single.closeClient (h : g.Single) (hc : closeClient a g = some g') : g'.Single := by
  obtain ⟨io, -, -, rfl⟩ := closeClient_cases hc
  have h₁ : (g.closeSockets a io).Single := by
    intro b
    unfold closeSockets
    rw [ctxt_modify_pIOContext, ite_self]
    exact Single.modifyIo (g := (g.enter.recordClose a).closesocket io.socketAccept) h a _ b
  have h₂ : ((g.closeSockets a io).enter.touch a).Single := h₁
  have h₃ := h₂.keeps (within_ctxtListRelink a none).toKeeps
  exact h₃

end Globals

namespace Shared

variable {y y' : Shared}

theorem single_start (h : y.g.Single) (sd : Option Socket) (a : Addr) (c : Call) (r : CallResult) :
    (y.start sd a c r).g.Single := by
  unfold start
  split_ifs
  · exact h.modifyIo a _
  · exact h

theorem single_associate {sd : Option Socket} {a : Addr} {ok : Bool} (h : y.g.Single)
    (ha : y.associate sd a ok = some y') : y'.g.Single := by
  cases ok with
  | true =>
    obtain ⟨-, _, -, -, rfl⟩ := associate_true ha
    exact h
  | false =>
    obtain ⟨-, rfl⟩ := associate_false ha
    exact h

theorem single_createAccept {ok : Bool} (h : y.g.Single) (hc : y.createAccept ok = some y') :
    y'.g.Single := by
  obtain ⟨a, -, -, -, rfl⟩ := createAccept_cases hc
  exact (h.keeps (within_createSocket ok).toKeeps).modifyIo a _

theorem single_acceptEx {r : CallResult} (h : y.g.Single) (hc : y.acceptEx r = some y') :
    y'.g.Single := by
  obtain ⟨a, -, -, -, rfl⟩ := acceptEx_cases hc
  exact single_start h _ _ _ _

theorem single_worker {v : Bool} {pc pc' : WorkerPc} (hs : WorkerStep v y pc y' pc')
    (h : y.g.Single) : y'.g.Single := by
  cases hs with
  | read | write => exact h.modifyIo _ _
  | prepared => exact Single.modifyIo (g := y.g.touch _) h _ _
  | posted => exact single_start (y := y.setG (y.g.touch _)) h _ _ _ _
  | acceptPosted => exact single_start (y := y.setG ((y.g.touch _).touch _)) h _ _ _ _
  | closed _ hc | acceptClosed _ hc => exact h.closeClient hc
  | allocated => exact Single.allocate (g := y.g.touch _) h _ _ _
  | associated hc | associateFailed hc => exact single_associate h hc
  | added => exact h.keeps (within_ctxtListAddTo _ none).toKeeps
  | created hc | createFailed hc => exact single_createAccept h hc
  | acceptEx hc => exact single_acceptEx h hc
  | _ => exact h

theorem single_main {n : ℕ} {pc pc' : MainPc} {ans : Answer} {ws : List WorkerPc}
    (hs : MainStep n y pc ans y' pc' ws) (h : y.g.Single) : y'.g.Single := by
  cases hs with
  | allocated => exact h.allocate _ _ _
  | associated hc | associateFailed hc =>
    have h' := single_associate h hc
    exact h'
  | created hc | createFailed hc =>
    have h' := single_createAccept h hc
    exact h'
  | acceptEx hc => exact single_acceptEx h hc
  | _ => exact h

end Shared

namespace Server

/-- What is handed on is initialised. -/
def HandedInitialised (s : Server) : Prop := ∀ a, s.Handed a → s.y.g.Initialised a

/-- The invariant of the runs in which no `PER_IO_CONTEXT` is missing. -/
structure Handing (s : Server) : Prop where
  inv : Inv s
  single : s.y.g.Single
  handed : s.HandedInitialised

variable {s s' : Server} {i : ℕ} {a : Addr} {pc pc' : WorkerPc} {y' : Shared}

/-- Once the startup is over, only workers are handed contexts. -/
theorem Handed.worker (h : s.Handed a) (hm : s.main.startup = false) :
    ∃ pc ∈ s.workers, pc.handed = some a := by
  rcases h with h | ⟨h, -⟩ | h
  · rw [h] at hm
    cases hm
  · rw [h] at hm
    cases hm
  · exact h

/-- What a worker has been handed is out of the reach of the others. -/
theorem Handing.frame {c : Option Addr} {l : Bool} (h : Handing s) (F : s.y.Frame y' c l)
    (hs : y'.g.Single) (hpc : pc ∈ s.workers) (ha : pc.handed = some a) (hc : c ≠ some a) :
    y'.g.Initialised a := by
  have hI := h.handed a (.inr (.inr ⟨pc, hpc, ha⟩))
  have hne := ((h.inv.workers pc hpc).client (WorkerPc.client_of_handed ha)).1
  exact hI.agree (F.client a hc hI.1 hne) hs

theorem initialised_of_allocate {g : Globals} {sd : Option Socket} {x : Allocation}
    (hs : (ctxtAllocate sd .clientIoAccept x g).1.Single)
    (ha : (ctxtAllocate sd .clientIoAccept x g).2 = some a) :
    (ctxtAllocate sd .clientIoAccept x g).1.Initialised a ↔ ∀ b, x ≠ .noIoContext b := by
  obtain ⟨-, -, ⟨rfl, hl, -, hio⟩ | ⟨rfl, hl, -⟩⟩ := ctxtAllocate_spec ha
  · exact iff_of_true (initialised_of_io hs hl hio) nofun
  · exact iff_of_false (not_initialised hl) fun hne => hne a rfl

/-- The step of a worker that calls `CtxtAllocate`. -/
theorem allocate_of_step {v : Bool} {y : Shared} {k : Addr} {n : ℕ} {ans : Answer}
    {q : Shared × WorkerPc} (h : WorkerPc.step v y (.allocate k n) ans = some q) :
    ∃ x, ∃ io : PerIoContext, ans = .heap x ∧
      q.1 = y.setG (ctxtAllocate io.socketAccept .clientIoAccept x (y.g.touch k)).1 ∧
      q.2.handed = (ctxtAllocate io.socketAccept .clientIoAccept x (y.g.touch k)).2 := by
  cases ans with
  | heap x =>
    obtain ⟨-, h⟩ := Option.ite_none_right_eq_some.mp h
    obtain ⟨io, -, rfl⟩ := Option.map_eq_some_iff.mp h
    refine ⟨x, io, rfl, rfl, ?_⟩
    cases x <;> rfl
  | _ => cases h

/-- A context is handed on by `CtxtAllocate`, or by the worker that has it in hand already. -/
theorem handed_of_step {v : Bool} {y : Shared} (h : WorkerStep v y pc y' pc')
    (ha : pc'.handed = some a) : (∃ k n, pc = .allocate k n) ∨ pc.handed = some a := by
  cases h with
  | allocated => exact .inl ⟨_, _, rfl⟩
  | associated | added => exact .inr ha
  | posted => cases v <;> cases ha
  | @acceptPosted _ _ p =>
    cases p <;> cases v <;> cases ha
  | _ => cases ha

/-- What a worker has been handed by its own step. -/
theorem Handing.own {v : Bool} {ans : Answer} (h : Handing s) (hi : s.workers[i]? = some pc)
    (hq : pc.step v s.y ans = some (y', pc')) (hs : y'.g.Single) (ha : pc'.handed = some a)
    (hC : Action.GivesIoContext (.worker i ans)) : y'.g.Initialised a := by
  have hstep : WorkerStep v s.y pc y' pc' := WorkerPc.step_cases hq
  rcases handed_of_step hstep ha with ⟨k, n, rfl⟩ | hpc
  · obtain ⟨x, io, rfl, rfl, hx⟩ := allocate_of_step hq
    exact (initialised_of_allocate hs (hx.symm.trans ha)).mpr hC
  · have hI := h.handed a (.inr (.inr ⟨pc, List.mem_of_getElem? hi, hpc⟩))
    cases hstep with
    | associated hc =>
      obtain ⟨-, _, -, -, rfl⟩ := Shared.associate_true hc
      exact hI
    | added => exact hI.agree (Shared.agree_of_within (within_ctxtListAddTo _ none) nofun) hs
    | associateFailed | prepared => cases ha
    | _ => cases hpc

theorem Handing.worker {ans : Answer} (h : Handing s) (hs : s.step (.worker i ans) = some s')
    (hC : Action.GivesIoContext (.worker i ans)) : Handing s' := by
  have hinv := h.inv.step hs
  obtain ⟨pc, hi, hs⟩ := Option.bind_eq_some_iff.mp hs
  obtain ⟨⟨y', pc'⟩, hq, rfl⟩ := Option.map_eq_some_iff.mp hs
  have hstep : WorkerStep s.bVerbose s.y pc y' pc' := WorkerPc.step_cases hq
  have hpc := h.inv.workers pc (List.mem_of_getElem? hi)
  have E := Shared.effect_worker hstep hpc h.inv.port
  have hsingle := Shared.single_worker hstep h.single
  refine ⟨hinv, hsingle, fun a ha => ?_⟩
  obtain ⟨w, hw, ha'⟩ := ha.worker (h.inv.worker_startup hi hstep)
  obtain ⟨j, hj⟩ := List.getElem?_of_mem hw
  rcases mem_of_getElem?_set hj with ⟨rfl, rfl⟩ | ⟨hji, hj'⟩
  · exact h.own hi hq hsingle ha' hC
  · have hapart := h.inv.workers_apart hi hj' (Ne.symm hji)
    exact h.frame E.frame hsingle (List.mem_of_getElem? hj') ha'
      (hapart.1 a (WorkerPc.client_of_handed ha'))

theorem Handing.complete {t : Transfer} {ok : Bool} (h : Handing s)
    (hs : s.step (.complete i t ok) = some s') : Handing s' := by
  have hinv := h.inv.step hs
  obtain ⟨y', hy', rfl⟩ := Option.map_eq_some_iff.mp hs
  obtain ⟨op, hop, -, -, F, -⟩ := complete_spec hy' h.inv.ops
  have hmem := List.mem_of_getElem? hop
  have hsingle : y'.g.Single := by
    obtain ⟨_, _, _, -, -, -, rfl⟩ := Shared.complete_cases hy'
    exact h.single.modifyIo _ _
  refine ⟨hinv, hsingle, fun a ha => ?_⟩
  obtain ⟨w, hw, ha'⟩ := ha.worker (h.inv.op_startup hmem)
  obtain ⟨j, hj⟩ := List.getElem?_of_mem hw
  have hapart := h.inv.op_apart hj hmem
  exact h.frame F hsingle hw ha' fun hc => hapart.1 a hc (WorkerPc.client_of_handed ha')

/-- What `main` has been handed by its own step. -/
theorem Handing.main_own {n : ℕ} {ans : Answer} {pc pc' : MainPc} {ws : List WorkerPc}
    (h : Handing s) (hpc : s.main = pc) (hs : MainStep n s.y pc ans y' pc' ws)
    (hsingle : y'.g.Single) (hC : Action.GivesIoContext (.main ans))
    (ha : pc' = .associate a ∨ pc' = .ioctl ∧ y'.g.pCtxtListenSocket = some a) :
    y'.g.Initialised a := by
  cases hs with
  | @allocated x b _ _ hx =>
    rcases ha with ha | ⟨ha, -⟩
    · obtain rfl := MainPc.associate.inj ha
      exact (initialised_of_allocate hsingle hx).mpr hC
    · cases ha
  | @associated b y₁ hc =>
    rcases ha with ha | ⟨-, ha⟩
    · cases ha
    · obtain rfl := Option.some.inj ha
      obtain ⟨-, _, -, -, rfl⟩ := Shared.associate_true hc
      have hI := h.handed b (.inl hpc)
      exact hI
  | cleanup => split_ifs at ha <;> simp at ha
  | _ => simp at ha

theorem Handing.main {ans : Answer} (h : Handing s) (hs : s.step (.main ans) = some s')
    (hC : Action.GivesIoContext (.main ans)) : Handing s' := by
  have hinv := h.inv.step hs
  obtain ⟨⟨⟨y', pc'⟩, ws⟩, hq, rfl⟩ := Option.map_eq_some_iff.mp hs
  have hstep : MainStep s.dwThreadCount s.y s.main ans y' pc' ws := MainPc.step_cases hq
  have hsingle := Shared.single_main hstep h.single
  refine ⟨hinv, hsingle, fun a ha => ?_⟩
  by_cases hst : s.main.startup = true
  · -- the workers wait, and the new ones will
    obtain ⟨hS, hw⟩ := h.inv.startup hst
    obtain ⟨-, hws⟩ := hS.step hst hstep
    rcases ha with ha | ha | ⟨w, hmem, ha⟩
    · exact h.main_own rfl hstep hsingle hC (.inl ha)
    · exact h.main_own rfl hstep hsingle hC (.inr ha)
    · have hw' : w = .getStatus := (List.mem_append.mp hmem).elim (hw w) (hws w)
      rw [hw'] at ha
      cases ha
  · have hf : s.main.startup = false := by simpa using hst
    obtain ⟨hg, -, -, hpc', rfl⟩ := hstep.served hf
    obtain ⟨w, hmem, ha⟩ := ha.worker hpc'
    have hI := h.handed a (.inr (.inr ⟨w, by simpa using hmem, ha⟩))
    show y'.g.Initialised a
    rcases hg with hg | hg <;> rw [hg] <;> exact hI

theorem Handing.step {b : Action} (h : Handing s) (hs : s.step b = some s')
    (hC : b.GivesIoContext) : Handing s' := by
  have hinv := h.inv.step hs
  cases b with
  | worker i ans => exact h.worker hs hC
  | main ans => exact h.main hs hC
  | complete i t ok => exact h.complete hs
  | ctrlEnd =>
    obtain rfl := Option.some.inj hs
    exact ⟨hinv, h.single, h.handed⟩
  | ctrlEvent =>
    cases step_cases hs with
    | ctrlEvent => exact ⟨hinv, h.single, h.handed⟩

/-- Without a `PER_IO_CONTEXT` a freed block is handed on. -/
theorem Handing.gives {b : Action} (h : Handing s) (hs : s.step b = some s')
    (hP : s'.HandedInitialised) : b.GivesIoContext := by
  cases b with
  | worker i ans =>
    cases ans with
    | heap x =>
      obtain ⟨pc, hi, hs⟩ := Option.bind_eq_some_iff.mp hs
      obtain ⟨⟨y', pc'⟩, hq, rfl⟩ := Option.map_eq_some_iff.mp hs
      have hsingle := Shared.single_worker (WorkerPc.step_cases hq) h.single
      have hmem : pc' ∈ s.workers.set i pc' := List.mem_set (List.getElem?_eq_some_iff.mp hi).1 _
      cases pc with
      | allocate k n =>
        obtain ⟨x', io, hx', rfl, hc⟩ := allocate_of_step hq
        obtain rfl := Answer.heap.inj hx'
        rintro a rfl
        exact (initialised_of_allocate hsingle rfl).mp
          (hP a (.inr (.inr ⟨pc', hmem, hc⟩))) a rfl
      | _ => cases hq
    | _ => trivial
  | main ans =>
    cases ans with
    | heap x =>
      obtain ⟨⟨⟨y', pc'⟩, ws⟩, hq, rfl⟩ := Option.map_eq_some_iff.mp hs
      have hsingle := Shared.single_main (MainPc.step_cases hq) h.single
      generalize s.main = pc at hq
      cases MainPc.step_cases hq with
      | noMemory => exact nofun
      | allocated _ _ ha => exact (initialised_of_allocate hsingle ha).mp (hP _ (.inl rfl))
    | _ => trivial
  | complete | ctrlEnd | ctrlEvent => trivial

theorem handing_initial (n : ℕ) (v : Bool) : Handing (initial n v) := by
  refine ⟨inv_initial n v, fun a => Nat.zero_le _, fun a ha => ?_⟩
  rcases ha with ha | ⟨ha, -⟩ | ⟨w, hw, -⟩
  · cases ha
  · cases ha
  · cases hw

/-- **Initialised, exactly if no I/O context is missing.** All along a run from the start, every
context that `CtxtAllocate` has returned, that is registered as a completion key or that is linked
into the list is live and has an initialised I/O context, exactly if in no step of the run the
`xmalloc` of a `PER_IO_CONTEXT` fails. -/
theorem handed_initialised_iff (dwThreadCount : ℕ) (bVerbose : Bool) (actions : List Action) :
    machine.Always HandedInitialised (initial dwThreadCount bVerbose) actions ↔
      machine.AllSteps (fun _ b => b.GivesIoContext) (initial dwThreadCount bVerbose) actions :=
  Machine.always_iff_allSteps (fun _ h => h.handed) (fun _ _ _ h hs hC => h.step hs hC)
    (fun _ _ _ h hs hP => h.gives hs hP) (handing_initial dwThreadCount bVerbose) actions

/-- Without memory for its I/O context the listening context is registered after it was freed, and a
client's context is registered and linked into the list. -/
theorem handed_freed :
    (∃ s, machine.run (initial 1 false) [.main (.call true), .main (.call true), .main .none,
        .main (.call true), .main (.call true), .main (.call true), .main (.heap (.noIoContext 0)),
        .main (.call true)] = some s ∧ s.Handed 0 ∧ ¬ s.y.g.Initialised 0) ∧
    ∃ s, machine.run (initial 1 false) (startup .success ++
      [.complete 0 (.data [65] []) true, .worker 0 (.packet 0), .worker 0 .none, .worker 0 .none,
        .worker 0 (.call true), .worker 0 (.heap (.noIoContext 1)), .worker 0 (.call true),
        .worker 0 .none]) = some s ∧ s.Handed 1 ∧ ¬ s.y.g.Initialised 1 ∧
      s.y.g.pCtxtList = some 1 ∧ s.y.g.fault = true :=
  ⟨⟨_, rfl, .inr (.inl ⟨rfl, rfl⟩), not_initialised rfl⟩,
    ⟨_, rfl, .inr (.inr ⟨_, List.mem_singleton.mpr rfl, rfl⟩), not_initialised rfl, rfl, rfl⟩⟩

end Server

end SelfStudy.Iocp
