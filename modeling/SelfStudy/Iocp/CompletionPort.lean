import SelfStudy.Iocp.Ownership

/-!
# `UpdateCompletionPort` when something fails

`UpdateCompletionPort` as one call, made of the steps that a worker takes through it
(`runs_updateCompletionPort`). A caller that gets NULL back finds the list, its links and the heap as
they were. The port is another matter: `g_hIOCP` is both the argument of `CreateIoCompletionPort` and
the variable its result goes to, so a failed association loses the handle. From then on nobody posts
a quit packet (`quit_lost`).
-/

namespace SelfStudy.Iocp

open Lib Globals

/-- What a failed call should leave as it was: the port, the list with its links, and the heap. -/
structure Globals.Unchanged (g g' : Globals) : Prop where
  hIocp : g'.hIocp = g.hIocp
  pCtxtList : g'.pCtxtList = g.pCtxtList
  ctxt : ∀ a, g.live a = true → g'.ctxt a = g.ctxt a
  live : g'.live = g.live

theorem ctxtAllocate_pCtxtList (sd : Option Socket) (o : IoOperation) (x : Allocation)
    (g : Globals) : (ctxtAllocate sd o x g).1.pCtxtList = g.pCtxtList := by
  cases x <;> rfl

theorem ctxtAllocate_free {g : Globals} {sd : Option Socket} {o : IoOperation} {x : Allocation}
    {a : Addr} (hx : x.fresh g = true) (h : (ctxtAllocate sd o x g).2 = some a) :
    g.live a = false ∧ (∀ b, b ≠ a → (ctxtAllocate sd o x g).1.ctxt b = g.ctxt b) ∧
      Function.update (ctxtAllocate sd o x g).1.live a false = g.live := by
  cases x with
  | noSocketContext => cases h
  | ok c =>
    obtain rfl := Option.some.inj h
    have hc : g.live c = false := by simpa using hx
    refine ⟨hc, fun b hb => ?_, ?_⟩
    · show Function.update (Function.update g.ctxt c _) c _ b = _
      rw [Function.update_of_ne hb, Function.update_of_ne hb]
    · show Function.update (Function.update g.live c true) c false = _
      rw [Function.update_idem, ← hc, Function.update_eq_self]
  | noIoContext c =>
    obtain rfl := Option.some.inj h
    have hc : g.live c = false := by simpa using hx
    refine ⟨hc, fun b hb => Function.update_of_ne hb .., ?_⟩
    show Function.update (Function.update (Function.update g.live c true) c false) c false = _
    rw [Function.update_idem, Function.update_idem, ← hc, Function.update_eq_self]

namespace Shared

/-- `UpdateCompletionPort`, with what it returns. -/
def updateCompletionPort (sd : Option Socket) (clientIo : IoOperation) (bAddToList bVerbose : Bool)
    (x : Allocation) (ok : Bool) (y : Shared) : Option (Shared × Option Addr) :=
  match (ctxtAllocate sd clientIo x y.g).2 with
  | none => some (y.setG (ctxtAllocate sd clientIo x y.g).1, none)
  | some a =>
    ((y.setG (ctxtAllocate sd clientIo x y.g).1).associate sd a ok).map fun y =>
      if ok then
        let g := if bAddToList then ctxtListAddTo a y.g else y.g
        (y.setG (if bVerbose then g.touch a else g), some a)
      else (y, none)

variable {y y' : Shared} {sd : Option Socket} {clientIo : IoOperation} {bAddToList bVerbose ok : Bool}
  {x : Allocation} {r : Option Addr}

/-- A worker by itself: the steps it takes while no other thread takes one. -/
def alone (bVerbose : Bool) : Machine (Shared × WorkerPc) Answer where
  init q := q.2 = .getStatus
  step q ans := q.2.step bVerbose q.1 ans

/-- A worker that is by itself in the accept case runs `UpdateCompletionPort` on the accept socket. -/
theorem runs_updateCompletionPort {k : Addr} {n : ℕ} {io : PerIoContext} {v : Bool}
    (hio : y.g.io k = some io) (hcs : y.g.criticalSection = 0) (hx : x.fresh y.g = true)
    (h : (y.setG (y.g.touch k)).updateCompletionPort io.socketAccept .clientIoAccept true false x ok =
      some (y', r)) :
    (alone v).Leads (y, .allocate k n) (y', r.elim .setEvent fun c => .prepare k n c) := by
  unfold updateCompletionPort at h
  cases hc : (ctxtAllocate io.socketAccept .clientIoAccept x (y.g.touch k)).2 with
  | none =>
    simp only [setG_g, hc] at h
    obtain ⟨rfl, rfl⟩ := Prod.mk.inj (Option.some.inj h)
    refine .of_step (a := .heap x) ?_
    simp [alone, WorkerPc.step, hcs, hx, hio, hc, setG]
  | some c =>
    simp only [setG_g, hc] at h
    obtain ⟨y₁, hy₁, h⟩ := Option.map_eq_some_iff.mp h
    refine .trans (.of_step (a := .heap x)
      (t := (y.setG (ctxtAllocate io.socketAccept .clientIoAccept x (y.g.touch k)).1,
        .associate k n io.socketAccept c)) ?_) ?_
    · simp [alone, WorkerPc.step, hcs, hx, hio, hc]
    cases ok with
    | false =>
      obtain ⟨rfl, rfl⟩ := Prod.mk.inj h
      refine .of_step (a := .call false) ?_
      exact Option.map_eq_some_iff.mpr ⟨y₁, hy₁, rfl⟩
    | true =>
      obtain ⟨rfl, rfl⟩ := Prod.mk.inj h
      refine .trans (.of_step (a := .call true) (t := (y₁, .addTo k n c)) ?_)
        (.of_step (a := .none) ?_)
      · exact Option.map_eq_some_iff.mpr ⟨y₁, hy₁, rfl⟩
      · -- `CtxtAllocate` has left the critical section
        have hcs₁ : y₁.g.criticalSection = 0 := by
          obtain ⟨-, s, -, -, rfl⟩ := associate_true hy₁
          cases x with
          | noSocketContext => cases hc
          | ok a | noIoContext a => exact congrArg (· + 1 - 1) hcs
        exact if_pos hcs₁

theorem updateCompletionPort_some {a : Addr}
    (h : y.updateCompletionPort sd clientIo bAddToList bVerbose x ok = some (y', some a)) :
    ok = true := by
  unfold updateCompletionPort at h
  cases hc : (ctxtAllocate sd clientIo x y.g).2 with
  | none =>
    rw [hc] at h
    cases (Prod.mk.inj (Option.some.inj h)).2
  | some b =>
    rw [hc] at h
    obtain ⟨y₁, -, h⟩ := Option.map_eq_some_iff.mp h
    cases ok with
    | true => rfl
    | false => cases (Prod.mk.inj h).2

/-- **A call that returns NULL.** The list, its links and the heap are as they were; the handle of
the port is still there only if the socket context was the allocation that failed. -/
theorem updateCompletionPort_null (hx : x.fresh y.g = true)
    (h : y.updateCompletionPort sd clientIo bAddToList bVerbose x ok = some (y', none)) :
    y'.g.pCtxtList = y.g.pCtxtList ∧ (∀ a, y.g.live a = true → y'.g.ctxt a = y.g.ctxt a) ∧
      y'.g.live = y.g.live ∧
      (x = .noSocketContext ∧ y'.g.hIocp = y.g.hIocp ∨
        x ≠ .noSocketContext ∧ ok = false ∧ y'.g.hIocp = false) := by
  unfold updateCompletionPort at h
  cases hc : (ctxtAllocate sd clientIo x y.g).2 with
  | none =>
    rw [hc] at h
    obtain ⟨rfl, -⟩ := Prod.mk.inj (Option.some.inj h)
    cases x with
    | noSocketContext => exact ⟨rfl, fun _ _ => rfl, rfl, .inl ⟨rfl, rfl⟩⟩
    | ok a | noIoContext a => cases hc
  | some a =>
    rw [hc] at h
    obtain ⟨y₁, hy₁, h⟩ := Option.map_eq_some_iff.mp h
    cases ok with
    | true => cases (Prod.mk.inj h).2
    | false =>
      obtain ⟨rfl, -⟩ := Prod.mk.inj h
      obtain ⟨-, rfl⟩ := associate_false hy₁
      obtain ⟨hlive, hctxt, hfree⟩ := ctxtAllocate_free hx hc
      refine ⟨?_, fun b hb => hctxt b ?_, hfree, .inr ⟨?_, rfl, rfl⟩⟩
      · exact ctxtAllocate_pCtxtList ..
      · rintro rfl
        rw [hb] at hlive
        cases hlive
      · rintro rfl
        cases hc

/-- **Atomic, except for the port.** With a live `g_hIOCP`, a call that returns NULL leaves the port,
the list with its links and the live contexts as they were exactly if the allocation of the socket
context is what fails, or if `CreateIoCompletionPort` succeeds. `g_CriticalSection` is not among
these: the allocation that fails does not leave it. -/
theorem updateCompletionPort_atomic_iff (hI : y.g.hIocp = true) (hx : x.fresh y.g = true)
    (h : y.updateCompletionPort sd clientIo bAddToList bVerbose x ok = some (y', r)) :
    (r = none → y.g.Unchanged y'.g) ↔ x = .noSocketContext ∨ ok = true := by
  cases r with
  | some a => exact iff_of_true nofun (.inr (updateCompletionPort_some h))
  | none =>
    obtain ⟨hlist, hctxt, hlive, hport⟩ := updateCompletionPort_null hx h
    rcases hport with ⟨rfl, hport⟩ | ⟨hx, rfl, hport⟩
    · exact iff_of_true (fun _ => ⟨hport, hlist, hctxt, hlive⟩) (.inl rfl)
    · refine iff_of_false (fun hU => ?_) ?_
      · have hkept := (hU rfl).hIocp
        rw [hport, hI] at hkept
        cases hkept
      · rintro (e | e)
        · exact hx e
        · cases e

/-- The first client's socket cannot be associated: NULL is returned, and `g_hIOCP` is NULL. -/
theorem updateCompletionPort_loses_port :
    ∃ y y' : Shared, y.g.hIocp = true ∧ Allocation.fresh y.g (.ok 0) = true ∧
      y.updateCompletionPort (some 0) .clientIoAccept true false (.ok 0) false = some (y', none) ∧
      ¬ y.g.Unchanged y'.g := by
  refine ⟨(Server.initial 1 false).y, _, rfl, rfl, rfl, fun h => ?_⟩
  cases h.hIocp

/-- Without memory for the socket context these are as they were, and `g_CriticalSection` is held. -/
theorem updateCompletionPort_atomic_noMemory :
    ∃ y y' : Shared, y.updateCompletionPort (some 0) .clientIoAccept true false .noSocketContext true =
      some (y', none) ∧ y.g.Unchanged y'.g := by
  obtain ⟨y, y', hI, h⟩ : ∃ y y' : Shared, y.g.hIocp = true ∧
      y.updateCompletionPort (some 0) .clientIoAccept true false .noSocketContext true =
        some (y', none) := ⟨(Server.initial 1 false).y, _, rfl, rfl⟩
  exact ⟨y, y', h, (updateCompletionPort_atomic_iff hI rfl h).mpr (.inl rfl) rfl⟩

end Shared

/-! ## What becomes of the shutdown -/

theorem WorkerStep.hIocp {v : Bool} {y y' : Shared} {pc pc' : WorkerPc}
    (h : WorkerStep v y pc y' pc') (hI : y.g.hIocp = false) :
    y'.g.hIocp = false ∧ ∀ p ∈ y'.port, p ∈ y.port := by
  cases h with
  | quit | dequeue => exact ⟨hI, fun p hp => List.mem_of_mem_eraseIdx hp⟩
  | posted hr | acceptPosted hr =>
    rw [Shared.start, if_pos hr]
    exact ⟨hI, fun _ => id⟩
  | closed _ hc | acceptClosed _ hc => exact ⟨(closeClient_spec hc).2.2.1.trans hI, fun _ => id⟩
  | @allocated _ _ io x _ _ _ _ _ =>
    exact ⟨(ctxtAllocate_globals io.socketAccept .clientIoAccept x _).2.2.1.trans hI, fun _ => id⟩
  | associated hc | associateFailed hc =>
    rw [Shared.associate, hI] at hc
    cases hc
  | added => exact ⟨(within_ctxtListAddTo _ none).hIocp.trans hI, fun _ => id⟩
  | created hc | createFailed hc =>
    obtain ⟨a, -, -, -, rfl⟩ := Shared.createAccept_cases hc
    exact ⟨hI, fun _ => id⟩
  | acceptEx hc =>
    obtain ⟨a, -, -, -, rfl⟩ := Shared.acceptEx_cases hc
    unfold Shared.start
    split_ifs <;> exact ⟨hI, fun _ => id⟩
  | _ => exact ⟨hI, fun _ => id⟩

namespace Server

variable {s t : Server}

/-- After the startup a lost port stays lost, and no packet is posted to it but completions. -/
theorem hIocp_step {a : Action} (hs : s.step a = some t) (hm : s.main.startup = false)
    (hI : s.y.g.hIocp = false) : t.main.startup = false ∧ t.y.g.hIocp = false ∧
      (.quit ∈ t.y.port → .quit ∈ s.y.port) := by
  cases step_cases hs with
  | worker _ hq =>
    obtain ⟨hI', hp⟩ := (WorkerPc.step_cases hq).hIocp hI
    exact ⟨hm, hI', hp _⟩
  | @main ans y' pc' ws hq =>
    have hstep : MainStep s.dwThreadCount s.y s.main ans y' pc' ws := MainPc.step_cases hq
    show pc'.startup = false ∧ y'.g.hIocp = false ∧ (.quit ∈ y'.port → _)
    generalize s.main = pc at hm hstep
    cases hstep with
    | waited | quitLost | quitsPosted => exact ⟨rfl, hI, id⟩
    | cleanup =>
      refine ⟨?_, hI, id⟩
      split_ifs <;> rfl
    | quitPosted _ hok => simp [hI] at hok
    | _ => cases hm
  | complete hc =>
    obtain ⟨op, k, f, -, -, -, rfl⟩ := Shared.complete_cases hc
    exact ⟨hm, hI, fun hq => by simpa using hq⟩
  | ctrlEnd | ctrlEvent => exact ⟨hm, hI, id⟩

/-- **The shutdown of a server that has lost its port.** No worker is ever told to leave. -/
theorem quit_lost (hm : s.main.startup = false) (hI : s.y.g.hIocp = false)
    (hq : .quit ∉ s.y.port) : ∀ as, machine.run s as = some t → .quit ∉ t.y.port := by
  intro as
  induction as generalizing s with
  | nil => intro h; exact Option.some.inj h ▸ hq
  | cons a as ih =>
    intro h
    obtain ⟨s', hs', h⟩ := Option.bind_eq_some_iff.mp h
    obtain ⟨hm', hI', hq'⟩ := hIocp_step hs' hm hI
    exact ih hm' hI' (fun hmem => hq (hq' hmem)) h

end Server

end SelfStudy.Iocp
