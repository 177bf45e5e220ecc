import SelfStudy.Iocp.Initialised

/-!
# Contexts that a worker still uses

A client context goes with the operation that is posted on it: from then on another worker may dequeue
the completion and free the context. With `g_bVerbose` a worker prints the socket of its client after
the post. And without memory for the I/O context `CtxtAllocate` returns a block that it has freed,
which the worker uses as the client's context.

`AccessesLive` says that no worker is about to use a freed context, `AccessesKept` that it is about to
use contexts in its own keeping only. `accesses_iff` gives the exact conditions under which the runs
of the server have the one, and both.
-/

namespace SelfStudy.Iocp

open Lib Globals

/-- The contexts that the next statement of the worker reads or writes, apart from the list. -/
def WorkerPc.accesses (g : Globals) : WorkerPc → List Addr
  | .dispatch _ op _ _ => [op.overlapped]
  | .post k o _ => [k, o]
  | .close k | .message k | .setsockopt k _ | .allocate k _ | .acceptMessage k => [k]
  | .associate _ _ _ c | .addTo _ _ c | .acceptClose c => [c]
  | .prepare k _ c | .acceptPost k c _ => [k, c]
  | .createSocket | .acceptEx => g.pCtxtListenSocket.toList
  | _ => []

/-- A worker that asks the heap for a `PER_IO_CONTEXT` gets one. -/
def Action.GivesWorker : Action → Prop
  | .worker _ (.heap x) => ∀ a, x ≠ .noIoContext a
  | _ => True

namespace Server

/-- No worker is about to use a freed context. -/
def AccessesLive (s : Server) : Prop :=
  ∀ pc ∈ s.workers, ∀ a ∈ pc.accesses s.y.g, s.y.g.live a = true

/-- A worker is about to use the listening context or the client that it has in hand. -/
def AccessesKept (s : Server) : Prop :=
  ∀ pc ∈ s.workers, ∀ a ∈ pc.accesses s.y.g,
    pc.client = some a ∨ s.y.g.pCtxtListenSocket = some a

/-- No context is freed that another worker is about to print the socket of. -/
def ClosesUnseen (s : Server) : Action → Prop
  | .worker i _ => ∀ k, s.workers[i]? = some (.close k) → .message k ∉ s.workers
  | _ => True

/-- With `g_bVerbose` no operation is posted on the client of a completion. -/
def PostsSilently (s : Server) : Action → Prop
  | .worker i (.overlapped r) => ∀ k o p, s.workers[i]? = some (.post k o p) →
    r.starts = true → s.bVerbose = false
  | _ => True

/-- The invariant of the runs without a use after free. -/
structure Serving (s : Server) : Prop where
  inv : Inv s
  handed : ∀ pc ∈ s.workers, ∀ a, pc.handed = some a → s.y.g.live a = true
  message : ∀ k, .message k ∈ s.workers → s.y.g.live k = true ∧
    ∀ pc ∈ s.workers, pc.accepting = true → pc.client ≠ some k

variable {s s' : Server} {y y' : Shared} {pc pc' : WorkerPc} {a : Addr} {i : ℕ}

/-! ## What is freed, and by whom -/

/-- A worker frees the client that it has in hand, at its end or in the accept case. -/
theorem live_worker {v : Bool} (h : WorkerStep v y pc y' pc') (ha : y.g.live a = true) :
    y'.g.live a = true ∨ pc = .close a ∨ pc.accepting = true ∧ pc.client = some a := by
  have hclose : ∀ {k g'}, closeClient k y.g = some g' → a ≠ k → g'.live a = true := by
    intro k g' hc hne
    rw [(closeClient_spec hc).2.1, Function.update_of_ne hne]
    exact ha
  cases h with
  | @closed k g' _ hc =>
    by_cases e : a = k
    · exact .inr (.inl (e ▸ rfl))
    · exact .inl (hclose hc e)
  | @acceptClosed c g' _ hc =>
    by_cases e : a = c
    · exact .inr (.inr ⟨rfl, e ▸ rfl⟩)
    · exact .inl (hclose hc e)
  | @associateFailed k n sd c _ hc =>
    obtain ⟨-, rfl⟩ := Shared.associate_false hc
    by_cases e : a = c
    · exact .inr (.inr ⟨rfl, e ▸ rfl⟩)
    · exact .inl ((Function.update_of_ne e ..).trans ha)
  | associated hc =>
    obtain ⟨-, _, -, -, rfl⟩ := Shared.associate_true hc
    exact .inl ha
  | @allocated k n io x c _ hx hio hc =>
    left
    obtain ⟨hA, -, hnew⟩ := ctxtAllocate_spec hc
    have hne : a ≠ c := by
      rintro rfl
      rcases hnew with ⟨rfl, -⟩ | ⟨rfl, -⟩ <;> simp [Allocation.fresh, ha] at hx
    exact (hA a hne).live.trans ha
  | added =>
    left
    rw [Shared.setG_g, (within_ctxtListAddTo _ none).live]
    exact ha
  | posted | acceptPosted => exact .inl ((congrFun (Shared.within_start _ _ _ _).live a).trans ha)
  | created hc | createFailed hc =>
    obtain ⟨k, -, W, -⟩ := Shared.within_createAccept hc
    exact .inl ((congrFun W.live a).trans ha)
  | acceptEx hc =>
    obtain ⟨k, -, W, -⟩ := Shared.within_acceptEx hc
    exact .inl ((congrFun W.live a).trans ha)
  | _ => exact .inl ha

/-- What a worker has in hand in the accept case it had before, unless it has just been allocated. -/
theorem accepting_of_step {v : Bool} (h : WorkerStep v y pc y' pc') (hacc : pc'.accepting = true)
    (ha : pc'.client = some a) :
    pc.accepting = true ∧ pc.client = some a ∨ y.g.live a = false := by
  cases h with
  | dequeue =>
    rw [WorkerPc.client, Shared.client_of_isAccept hacc] at ha
    cases ha
  | serve => exact .inl ⟨hacc, ha⟩
  | allocated _ hx _ hc =>
    right
    obtain rfl := Option.some.inj ha
    obtain ⟨-, -, ⟨rfl, -⟩ | ⟨rfl, -⟩⟩ := ctxtAllocate_spec hc <;>
      simpa using hx
  | drop | read | write | postFailed => cases hacc
  | posted => cases v <;> cases hacc
  | @acceptPosted _ _ p => cases p <;> cases v <;> cases ha
  | associated | added | prepared | acceptPostFailed => exact .inl ⟨rfl, ha⟩
  | _ => cases ha

/-- The message is printed after a post on the client of a completion. -/
theorem message_of_step {v : Bool} {ans : Answer} {k : Addr}
    (h : pc.step v y ans = some (y', .message k)) :
    ∃ o p r, pc = .post k o p ∧ ans = .overlapped r ∧ r.starts = true ∧ v = true := by
  obtain ⟨o, p, rfl, hv⟩ : ∃ o p, pc = .post k o p ∧ v = true := by
    have hstep : WorkerStep v y pc y' (.message k) := WorkerPc.step_cases h
    generalize hm : WorkerPc.message k = w at hstep
    cases hstep with
    | posted =>
      cases v with
      | true => exact ⟨_, _, by rw [WorkerPc.message.inj hm], rfl⟩
      | false => cases hm
    | @acceptPosted _ _ p => cases p <;> cases v <;> cases hm
    | _ => cases hm
  cases ans with
  | overlapped r =>
    obtain ⟨-, hm⟩ := Prod.mk.inj (Option.some.inj h)
    refine ⟨o, p, r, rfl, rfl, ?_, hv⟩
    by_contra hr
    rw [CallResult.failed_int, if_pos (by simpa using hr)] at hm
    cases hm
  | _ => cases h

/-! ## The steps -/

/-- The step of a worker that has another one's context in hand or at print does not free it. -/
theorem Serving.worker {ans : Answer} (h : Serving s) (hi : s.workers[i]? = some pc)
    (hq : pc.step s.bVerbose s.y ans = some (y', pc')) (hG : (Action.worker i ans).GivesWorker)
    (hC : s.ClosesUnseen (.worker i ans)) :
    Serving { s with y := y', workers := s.workers.set i pc' } := by
  have hstep : WorkerStep s.bVerbose s.y pc y' pc' := WorkerPc.step_cases hq
  have hpc := h.inv.workers pc (List.mem_of_getElem? hi)
  refine ⟨h.inv.worker hi hstep, fun w hw a ha => ?_, fun k hk => ?_⟩
  · obtain ⟨j, hj⟩ := List.getElem?_of_mem hw
    rcases mem_of_getElem?_set hj with ⟨rfl, rfl⟩ | ⟨hji, hj'⟩
    · rcases handed_of_step hstep ha with ⟨k, n, rfl⟩ | hh
      · obtain ⟨x, io, rfl, rfl, hx⟩ := allocate_of_step hq
        obtain ⟨-, -, ⟨-, hl, -⟩ | ⟨rfl, -⟩⟩ := ctxtAllocate_spec (hx.symm.trans ha)
        · exact hl
        · exact absurd rfl (hG a)
      · have hl := h.handed pc (List.mem_of_getElem? hi) a hh
        cases hstep with
        | associated hc =>
          obtain ⟨-, _, -, -, rfl⟩ := Shared.associate_true hc
          exact hl
        | added => exact (congrFun (within_ctxtListAddTo _ none).live a).trans hl
        | associateFailed | prepared => cases ha
        | _ => cases hh
    · have hmem := List.mem_of_getElem? hj'
      have hcl := WorkerPc.client_of_handed ha
      have hne := (h.inv.workers_apart hi hj' (Ne.symm hji)).1 a hcl
      rcases live_worker hstep (h.handed w hmem a ha) with hl | rfl | ⟨-, hc⟩
      · exact hl
      · exact absurd rfl hne
      · exact absurd hc hne
  · obtain ⟨j, hj⟩ := List.getElem?_of_mem hk
    rcases mem_of_getElem?_set hj with ⟨rfl, rfl⟩ | ⟨hji, hj'⟩
    · -- it has just posted
      obtain ⟨o, p, r, rfl, -⟩ := message_of_step hq
      refine ⟨?_, fun w hw hacc hcl => ?_⟩
      · rcases live_worker hstep hpc.2.1.live with hl | hm | ⟨hacc, -⟩
        · exact hl
        · cases hm
        · cases hacc
      · obtain ⟨j', hw'⟩ := List.getElem?_of_mem hw
        rcases mem_of_getElem?_set hw' with ⟨-, rfl⟩ | ⟨hji, hj'⟩
        · cases hacc
        · exact (h.inv.workers_apart hi hj' (Ne.symm hji)).1 k hcl rfl
    · have hmem := List.mem_of_getElem? hj'
      obtain ⟨hl, hapart⟩ := h.message k hmem
      refine ⟨?_, fun w hw hacc hcl => ?_⟩
      · rcases live_worker hstep hl with hl | rfl | ⟨hacc, hcl⟩
        · exact hl
        · exact absurd hmem (hC k hi)
        · exact absurd hcl (hapart pc (List.mem_of_getElem? hi) hacc)
      · obtain ⟨j', hw'⟩ := List.getElem?_of_mem hw
        rcases mem_of_getElem?_set hw' with ⟨rfl, rfl⟩ | ⟨-, hj₂⟩
        · rcases accepting_of_step hstep hacc hcl with ⟨hacc, hcl⟩ | hd
          · exact hapart pc (List.mem_of_getElem? hi) hacc hcl
          · rw [hl] at hd
            cases hd
        · exact hapart w (List.mem_of_getElem? hj₂) hacc hcl

theorem Serving.main {ans : Answer} {y' : Shared} {pc' : MainPc} {ws : List WorkerPc}
    (h : Serving s) (hs : MainStep s.dwThreadCount s.y s.main ans y' pc' ws) :
    Serving { s with y := y', main := pc', workers := s.workers ++ ws } := by
  have hinv := h.inv.main_step hs
  by_cases hst : s.main.startup = true
  · -- the workers wait, and the new ones will
    obtain ⟨hS, hw⟩ := h.inv.startup hst
    obtain ⟨-, hws⟩ := hS.step hst hs
    have hall : ∀ pc ∈ s.workers ++ ws, pc = .getStatus :=
      fun pc hpc => (List.mem_append.mp hpc).elim (hw pc) (hws pc)
    refine ⟨hinv, fun pc hpc a ha => ?_, fun k hk => ?_⟩
    · rw [hall pc hpc] at ha
      cases ha
    · cases hall _ hk
  · obtain ⟨hg, -, -, -, rfl⟩ := hs.served (by simpa using hst)
    have hlive : y'.g.live = s.y.g.live := by
      rcases hg with hg | hg <;> rw [hg]
      rfl
    rw [List.append_nil] at hinv ⊢
    refine ⟨hinv, fun pc hpc a ha => ?_, fun k hk => ?_⟩
    · exact (congrFun hlive a).trans (h.handed pc hpc a ha)
    · exact ⟨(congrFun hlive k).trans (h.message k hk).1, (h.message k hk).2⟩

theorem Serving.step {b : Action} (h : Serving s) (hs : s.step b = some s') (hG : b.GivesWorker)
    (hC : s.ClosesUnseen b) : Serving s' := by
  have hinv := h.inv.step hs
  cases step_cases hs with
  | worker hi hq => exact h.worker hi hq hG hC
  | main hq => exact h.main (MainPc.step_cases hq)
  | complete hy =>
    obtain ⟨op, -, -, -, -, -, W, -⟩ := complete_spec hy h.inv.ops
    refine ⟨hinv, fun pc hpc a ha => ?_, fun k hk => ?_⟩
    · exact (congrFun W.live a).trans (h.handed pc hpc a ha)
    · exact ⟨(congrFun W.live k).trans (h.message k hk).1, (h.message k hk).2⟩
  | ctrlEnd | ctrlEvent => exact ⟨hinv, h.handed, h.message⟩

/-! ## What is about to be used -/

theorem Serving.accessesLive (h : Serving s) : s.AccessesLive := by
  intro pc hpc a ha
  have hok := h.inv.workers pc hpc
  have hh := h.handed pc hpc
  have hlisten : (∃ k, s.y.Listening k) → a ∈ s.y.g.pCtxtListenSocket.toList →
      s.y.g.live a = true := by
    rintro ⟨k, hL⟩ ha
    rw [hL.listen] at ha
    obtain rfl := List.mem_singleton.mp ha
    exact hL.live
  cases pc with
  | dispatch k op n ok =>
    obtain rfl := List.mem_singleton.mp ha
    by_cases hacc : op.isAccept = true
    · exact (hok.2.listening hacc).live
    · exact (hok.2.isClient (Shared.client_of_not_isAccept hacc)).2.1.live
  | post k o p =>
    obtain ⟨rfl, hC, -⟩ := hok
    obtain rfl : a = o := by simpa [WorkerPc.accesses] using ha
    exact hC.live
  | close k =>
    obtain rfl := List.mem_singleton.mp ha
    exact Shared.IsClient.live hok
  | message k =>
    obtain rfl := List.mem_singleton.mp ha
    exact (h.message a hpc).1
  | setsockopt k n | allocate k n | acceptMessage k =>
    obtain rfl := List.mem_singleton.mp ha
    exact Shared.Listening.live hok
  | associate k n sd c | addTo k n c =>
    obtain rfl := List.mem_singleton.mp ha
    exact hh a rfl
  | prepare k n c =>
    obtain rfl | rfl : a = k ∨ a = c := by simpa [WorkerPc.accesses] using ha
    · exact hok.1.live
    · exact hh a rfl
  | acceptPost k c p =>
    obtain rfl | rfl : a = k ∨ a = c := by simpa [WorkerPc.accesses] using ha
    · exact hok.1.live
    · exact hok.2.1.live
  | acceptClose c =>
    obtain rfl := List.mem_singleton.mp ha
    exact hok.2.live
  | createSocket | acceptEx => exact hlisten hok ha
  | getStatus | testEnd | setEvent | returned => cases ha

/-- Every access but that of the message is to a context in hand. -/
theorem Inv.accessesKept (h : Inv s) (hM : ∀ k, .message k ∉ s.workers) : s.AccessesKept := by
  intro pc hpc a ha
  have hok := h.workers pc hpc
  cases pc with
  | dispatch k op n ok =>
    obtain rfl := List.mem_singleton.mp ha
    by_cases hacc : op.isAccept = true
    · exact .inr (hok.2.listening hacc).listen
    · exact .inl (Shared.client_of_not_isAccept hacc)
  | post k o p =>
    obtain ⟨rfl, hC, -⟩ := hok
    obtain rfl : a = o := by simpa [WorkerPc.accesses] using ha
    exact .inl rfl
  | close k | associate k n sd c | addTo k n c | acceptClose c =>
    obtain rfl := List.mem_singleton.mp ha
    exact .inl rfl
  | message k => exact absurd hpc (hM k)
  | setsockopt k n | allocate k n | acceptMessage k =>
    obtain rfl := List.mem_singleton.mp ha
    exact .inr (Shared.Listening.listen hok)
  | prepare k n c | acceptPost k c p =>
    obtain rfl | rfl : a = k ∨ a = c := by simpa [WorkerPc.accesses] using ha
    · exact .inr hok.1.listen
    · exact .inl rfl
  | createSocket | acceptEx => exact .inr (Option.mem_toList.mp ha)
  | getStatus | testEnd | setEvent | returned => cases ha

/-- A step of a worker off the list accesses what `accesses` says. -/
theorem fault_worker {v : Bool} (h : WorkerStep v y pc y' pc')
    (ha : ∀ a ∈ pc.accesses y.g, y.g.live a = true)
    (hlist : ∀ c, pc ≠ .close c ∧ pc ≠ .acceptClose c ∧ ∀ k n, pc ≠ .addTo k n c) :
    y'.g.fault = y.g.fault := by
  have hstart : ∀ (y₁ : Shared) {sd : Option Socket} {b : Addr} {c : Call} {r : CallResult},
      y₁.g.live b = true → (y₁.start sd b c r).g.fault = y₁.g.fault := by
    intro y₁ sd b c r hb
    unfold Shared.start
    split_ifs
    · simp [Globals.modifyIo, hb]
    · rfl
  cases h with
  | closed => exact absurd rfl (hlist _).1
  | acceptClosed => exact absurd rfl (hlist _).2.1
  | added => exact absurd rfl ((hlist _).2.2 _ _)
  | drop | accept | message | updated | updateFailed | acceptMessage | noMemory | postFailed =>
    simp [ha _ List.mem_cons_self]
  | read | write => simp [Globals.modifyIo, ha _ List.mem_cons_self]
  | acceptPostFailed | prepared =>
    simp [Globals.modifyIo, ha _ List.mem_cons_self, ha _ (List.mem_cons_of_mem _ List.mem_cons_self)]
  | @posted k o p r =>
    refine (hstart (y.setG (y.g.touch k)) ?_).trans ?_
    · exact ha o (by simp [WorkerPc.accesses])
    · simp [ha _ List.mem_cons_self]
  | @acceptPosted k c p r =>
    refine (hstart (y.setG ((y.g.touch k).touch c)) ?_).trans ?_
    · exact ha c (by simp [WorkerPc.accesses])
    · simp [ha _ List.mem_cons_self, ha _ (List.mem_cons_of_mem _ List.mem_cons_self)]
  | @allocated k n io x c _ _ _ hc =>
    cases x with
    | noSocketContext => cases hc
    | ok b | noIoContext b => simp [ctxtAllocate, ha _ List.mem_cons_self]
  | associated hc =>
    obtain ⟨-, _, -, -, rfl⟩ := Shared.associate_true hc
    rfl
  | associateFailed hc =>
    obtain ⟨-, rfl⟩ := Shared.associate_false hc
    simp [ha _ List.mem_cons_self]
  | created hc | createFailed hc =>
    obtain ⟨k, -, hk, -, rfl⟩ := Shared.createAccept_cases hc
    simp [Globals.modifyIo, Globals.createSocket, ha k (Option.mem_toList.mpr hk)]
  | acceptEx hc =>
    obtain ⟨k, -, hk, -, rfl⟩ := Shared.acceptEx_cases hc
    exact hstart y (ha k (Option.mem_toList.mpr hk))
  | _ => rfl

/-! ## The conditions are necessary -/

theorem givesWorker_of_step {b : Action} (hs : s.step b = some s') (hP : s'.AccessesLive) :
    b.GivesWorker := by
  cases step_cases hs with
  | @worker i ans pc y' pc' hi hq =>
    cases ans with
    | heap x =>
      cases pc with
      | allocate k n =>
        obtain ⟨x', io, hx', rfl, hc⟩ := allocate_of_step hq
        obtain rfl := Answer.heap.inj hx'
        rintro a rfl
        have hmem : pc' ∈ s.workers.set i pc' :=
          List.mem_set (List.getElem?_eq_some_iff.mp hi).1 _
        have hacc : a ∈ pc'.accesses (ctxtAllocate io.socketAccept .clientIoAccept
            (.noIoContext a) (s.y.g.touch k)).1 := by
          cases pc' with
          | associate k n sd c | addTo k n c => exact Option.some.inj hc ▸ List.mem_singleton_self _
          | prepare k n c => exact Option.some.inj hc ▸ List.mem_cons_of_mem _ List.mem_cons_self
          | _ => cases hc
        have hl := hP pc' hmem a hacc
        simp at hl
      | _ => cases hq
    | _ => trivial
  | _ => trivial

theorem closesUnseen_of_step {b : Action} (hs : s.step b = some s') (hP : s'.AccessesLive) :
    s.ClosesUnseen b := by
  cases step_cases hs with
  | @worker i ans pc y' pc' hi hq =>
    intro k hk hm
    obtain rfl := Option.some.inj (hi.symm.trans hk)
    have hstep : WorkerStep s.bVerbose s.y (.close k) y' pc' := WorkerPc.step_cases hq
    cases hstep with
    | @closed _ g _ hc =>
      rcases eq_or_mem_set hi hm .getStatus with hm | hm
      · cases hm
      · have hl : g.live k = true := hP _ hm k (List.mem_singleton_self k)
        rw [(closeClient_spec hc).2.1] at hl
        simp at hl
  | _ => trivial

theorem Serving.postsSilently {b : Action} (h : Serving s) (hs : s.step b = some s')
    (hP : s'.AccessesKept) : s.PostsSilently b := by
  cases step_cases hs with
  | @worker i ans pc y' pc' hi hq =>
    cases ans with
    | overlapped r =>
      intro k o p hk hr
      obtain rfl := Option.some.inj (hi.symm.trans hk)
      have hstep : WorkerStep s.bVerbose s.y (.post k o p) y' pc' := WorkerPc.step_cases hq
      have hpc := h.inv.workers _ (List.mem_of_getElem? hi)
      have E := Shared.effect_worker hstep hpc h.inv.port
      by_contra hv
      have hv : s.bVerbose = true := by simpa using hv
      obtain ⟨-, rfl⟩ := Prod.mk.inj (Option.some.inj hq)
      rw [CallResult.failed_int, hr, hv] at hP
      have hmem : WorkerPc.message k ∈ s.workers.set i (.message k) :=
        List.mem_set (List.getElem?_eq_some_iff.mp hi).1 _
      rcases hP _ hmem k (List.mem_singleton_self k) with hc | hl
      · cases hc
      · exact hpc.2.1.ne (E.frame.pCtxtListenSocket.symm.trans hl)
    | _ => trivial
  | _ => trivial

/-- Without the message nothing is printed after a post. -/
theorem no_message_of_step {b : Action} (hM : ∀ k, .message k ∉ s.workers)
    (hs : s.step b = some s') (hC : s.PostsSilently b) : ∀ k, .message k ∉ s'.workers := by
  intro k hk
  cases step_cases hs with
  | @worker i ans pc y' pc' hi hq =>
    rcases List.mem_or_eq_of_mem_set hk with hk | rfl
    · exact hM k hk
    · obtain ⟨o, p, r, rfl, rfl, hr, hv⟩ := message_of_step hq
      rw [hC k o p hi hr] at hv
      cases hv
  | main hq =>
    rcases List.mem_append.mp hk with hk | hk
    · exact hM k hk
    · cases (MainPc.step_cases hq).workers _ hk
  | _ => exact hM k hk

theorem serving_initial (n : ℕ) (v : Bool) : Serving (initial n v) :=
  ⟨inv_initial n v, nofun, nofun⟩

/-- **The heap agrees**: in these runs a step of a worker outside the list code touches no freed block. -/
theorem fault_of_reachable
    (hr : machine.ReachableIf (fun s b => b.GivesWorker ∧ s.ClosesUnseen b) s) {ans : Answer}
    (hi : s.workers[i]? = some pc) (hs : s.step (.worker i ans) = some s')
    (hlist : ∀ c, pc ≠ .close c ∧ pc ≠ .acceptClose c ∧ ∀ k n, pc ≠ .addTo k n c) :
    s'.y.g.fault = s.y.g.fault := by
  have h : Serving s := by
    refine hr.invariant (P := Serving) ?_ fun s b s' _ h hC hs => h.step hs hC.1 hC.2
    rintro _ ⟨n, v, rfl⟩
    exact serving_initial n v
  cases step_cases hs with
  | worker hi' hq =>
    obtain rfl := Option.some.inj (hi.symm.trans hi')
    exact fault_worker (WorkerPc.step_cases hq)
      (h.accessesLive _ (List.mem_of_getElem? hi)) hlist

/-- **Use after free, exactly.** All along a run from the start, no worker is about to use a freed
context exactly if no worker is left without a `PER_IO_CONTEXT` and no context is closed that another
worker is about to print the socket of; and none is about to use a freed context or a client that it
has posted an operation on exactly if no worker is left without a `PER_IO_CONTEXT` and, with
`g_bVerbose`, no operation is posted on the client of a completion. These runs end with the quit
packets of `main`: what it frees itself, after a wait that has timed out, is not in them. -/
theorem accesses_iff (dwThreadCount : ℕ) (bVerbose : Bool) (actions : List Action) :
    (machine.Always AccessesLive (initial dwThreadCount bVerbose) actions ↔
      machine.AllSteps (fun s b => b.GivesWorker ∧ s.ClosesUnseen b)
        (initial dwThreadCount bVerbose) actions) ∧
    (machine.Always (fun s => s.AccessesLive ∧ s.AccessesKept) (initial dwThreadCount bVerbose)
        actions ↔
      machine.AllSteps (fun s b => b.GivesWorker ∧ s.PostsSilently b)
        (initial dwThreadCount bVerbose) actions) := by
  constructor
  · refine Machine.always_iff_allSteps (I := Serving) (fun _ h => h.accessesLive) ?_ ?_
      (serving_initial dwThreadCount bVerbose) actions
    · rintro s b s' h hs ⟨hG, hC⟩
      exact h.step hs hG hC
    · rintro s b s' h hs hP
      exact ⟨givesWorker_of_step hs hP, closesUnseen_of_step hs hP⟩
  · refine Machine.always_iff_allSteps (I := fun s => Serving s ∧ ∀ k, .message k ∉ s.workers)
      ?_ ?_ ?_ ⟨serving_initial dwThreadCount bVerbose, nofun⟩ actions
    · rintro s ⟨h, hM⟩
      exact ⟨h.accessesLive, h.inv.accessesKept hM⟩
    · rintro s b s' ⟨h, hM⟩ hs ⟨hG, hC⟩
      refine ⟨h.step hs hG ?_, no_message_of_step hM hs hC⟩
      cases b with
      | worker i ans => exact fun k _ => hM k
      | _ => trivial
    · rintro s b s' ⟨h, -⟩ hs ⟨hL, hK⟩
      exact ⟨givesWorker_of_step hs hL, h.postsSilently hs hK⟩

/-- With `g_bVerbose` a client sends a byte, gets it back and disconnects: the worker 0 has posted the
receive after the echo, the worker 1 dequeues its completion and closes the client, and then the
worker 0 prints the socket of the freed context. -/
theorem message_after_free : ∃ s, machine.run (initial 2 true) ([.main (.call true),
      .main (.call true), .main (.call true), .main .none, .main (.call true), .main (.call true),
      .main (.call true), .main (.heap (.ok 0)), .main (.call true), .main (.call true),
      .main (.call true), .main (.overlapped .success),
      .complete 0 (.data [65] []) true, .worker 0 (.packet 0), .worker 0 .none, .worker 0 .none,
      .worker 0 (.call true), .worker 0 (.heap (.ok 1)), .worker 0 (.call true), .worker 0 .none,
      .worker 0 .none, .worker 0 (.overlapped .success), .worker 0 .none, .worker 0 (.call true),
      .worker 0 (.overlapped .success),
      .complete 0 (.count 1) true, .worker 0 (.packet 0), .worker 0 .none, .worker 0 .none,
      .worker 0 (.overlapped .success),
      .complete 1 (.data [] []) true, .worker 1 (.packet 0), .worker 1 .none, .worker 1 .none,
      .worker 1 .none]) = some s ∧
    s.workers = [.message 1, .getStatus] ∧ s.y.g.live 1 = false ∧ s.y.g.fault = false ∧
    ¬ s.AccessesLive ∧
    ∃ t, s.step (.worker 0 .none) = some t ∧ t.y.g.fault = true := by
  refine ⟨_, rfl, rfl, rfl, rfl, fun hP => ?_, _, rfl, rfl⟩
  cases hP (.message 1) List.mem_cons_self 1 List.mem_cons_self

end Server

end SelfStudy.Iocp
