import SelfStudy.Iocp.Accept
import SelfStudy.Iocp.Finally
import SelfStudy.Iocp.Restart

/-!
# One iteration of the restart loop

The server with its finally block is one iteration of the restart loop. Whatever `main` and
`CtrlHandler` do in it while the workers rest and nothing completes, they do in the restart loop as
well, and the globals and the event are the same: `main` from the creation of the port to the end of
the finally block, with each failure that it can meet.
-/

namespace SelfStudy.Iocp

open Lib RestartLoop

/-- The statement of the restart loop; the test of `g_hIOCP` is one of its own there. -/
def MainPc.inLoop (rest : FinallyPc) : MainPc → LoopPc
  | .createPort => .createPort
  | .createThread dwCPU => .createThread dwCPU
  | .getaddrinfo => .getaddrinfo
  | .listenSocket => .listenSocket
  | .bindListen => .bindListen
  | .allocate => .allocate
  | .associate a => .associate a
  | .ioctl => .ioctl
  | .createSocket => .createSocket
  | .acceptEx => .acceptEx
  | .wait => .wait
  | .cleanup => .testPort
  | .postQuit i => .postQuit i
  | .join => .rest rest

/-! ## The accept socket -/

section Accept

variable {y y' : Shared}

theorem createAccept_globals {ok : Bool} (h : y.createAccept ok = some y') :
    y.g.createAccept ok = some y'.g := by
  obtain ⟨a, io, ha, hio, rfl⟩ := Shared.createAccept_cases h
  simp only [Globals.createAccept, ha, hio, Option.bind_some, Option.isSome_some, if_true]
  rfl

theorem acceptEx_globals {r : CallResult} (h : y.acceptEx r = some y') :
    y.g.acceptEx r.starts = some y'.g := by
  obtain ⟨a, io, ha, hio, rfl⟩ := Shared.acceptEx_cases h
  simp only [Globals.acceptEx, ha, hio, Option.bind_some, Option.isSome_some, if_true, Shared.start]
  split_ifs <;> rfl

end Accept

theorem setIocp_self {g : Globals} (h : g.hIocp = true) : g.setIocp true = g := by
  unfold Globals.setIocp
  rw [← h]

/-! ## The steps of `main` -/

namespace RestartLoop

variable {n : ℕ} {y y' : Shared} {o o' : Bool} {pc pc' : LoopPc} {u u' : RestartLoop}

/-- `main` stands at the statement `pc`, and what it shares is as in `y`. If `o` is set, it holds the
lock if anybody does. -/
structure Stands (n : ℕ) (y : Shared) (o : Bool) (pc : LoopPc) (u : RestartLoop) : Prop where
  pc : u.pc = pc
  dwThreadCount : u.dwThreadCount = n
  g : u.g = y.g
  cleanupEvent : u.cleanupEvent = y.cleanupEvent
  mainOwns : o = true → u.mainOwns = true

/-- `main` alone gets from `u` to the statement `pc`, where what it shares is as in `y`. -/
def Gets (u : RestartLoop) (n : ℕ) (y : Shared) (o : Bool) (pc : LoopPc) : Prop :=
  ∃ (answers : List LoopAnswer) (u' : RestartLoop),
    machine.run u (answers.map .main) = some u' ∧ Stands n y o pc u' ∧ u'.handlers = u.handlers

theorem Gets.of_step {start : LoopPc} (ans : LoopAnswer) (hpc : u.pc = start)
    (hs : u.mainStep start ans = some u') (h : Stands n y o pc u')
    (hh : u'.handlers = u.handlers) : u.Gets n y o pc := by
  have hs : machine.step u (.main ans) = some u' := by
    show u.mainStep u.pc ans = _
    rw [hpc, hs]
  exact ⟨[ans], u', (Machine.run_cons hs []).trans rfl, h, hh⟩

/-- A statement that writes to the globals only. -/
theorem Stands.write {start : LoopPc} {g : Globals} (h : Stands n y o start u) (ans : LoopAnswer)
    (hs : u.mainStep start ans = some { u with g := g, pc := pc }) (hg : g = y'.g)
    (he : y'.cleanupEvent = y.cleanupEvent) : u.Gets n y' o pc :=
  .of_step ans h.pc hs ⟨rfl, h.dwThreadCount, hg, h.cleanupEvent.trans he.symm, h.mainOwns⟩ rfl

/-- A statement that moves on. -/
theorem Stands.jump {start : LoopPc} (h : Stands n y o start u) (ans : LoopAnswer)
    (hs : u.mainStep start ans = some (u.goto pc)) : u.Gets n y o pc :=
  h.write ans hs h.g rfl

theorem Gets.andThen (h : u.Gets n y o pc)
    (h' : ∀ u', Stands n y o pc u' → u'.Gets n y' o' pc') : u.Gets n y' o' pc' := by
  obtain ⟨as, v, hv, hst, hh⟩ := h
  obtain ⟨bs, w, hw, hst', hh'⟩ := h' v hst
  refine ⟨as ++ bs, w, ?_, hst', hh'.trans hh⟩
  rw [List.map_append, Machine.run_append, hv]
  exact hw

theorem Gets.mono (h : u.Gets n y o pc) (ho : o' = true → o = true) : u.Gets n y o' pc := by
  obtain ⟨as, v, hv, hst, hh⟩ := h
  exact ⟨as, v, hv, { hst with mainOwns := hst.mainOwns ∘ ho }, hh⟩

/-- From a failure on `main` goes to the test of `g_hIOCP`. -/
theorem Gets.leave (h : u.Gets n y o .endServer) : u.Gets n y.leave.1 o .testPort :=
  h.andThen fun _ h => h.write .none rfl (congrArg Globals.endServer h.g) rfl

/-- Each step of `main` up to the wait for the threads. -/
theorem Stands.step {main main' : MainPc} {ans : Answer} {ws : List WorkerPc}
    (h : Stands n y o (main.inLoop .waitThreads) u) (hs : MainStep n y main ans y' main' ws) :
    u.Gets n y' o (main'.inLoop .waitThreads) := by
  have hn := h.dwThreadCount
  cases hs with
  | portCreated =>
    exact .of_step (.call true) h.pc rfl
      ⟨rfl, hn, congrArg (Globals.setIocp true) h.g, h.cleanupEvent, h.mainOwns⟩ rfl
  | portFailed =>
    exact .leave (h.write (.call false) rfl (congrArg (Globals.setIocp false) h.g) rfl)
  | threadCreated hlt =>
    exact .of_step (.call true) h.pc (if_pos (hn ▸ hlt))
      ⟨rfl, hn, h.g, h.cleanupEvent, h.mainOwns⟩ rfl
  | threadFailed hlt => exact .leave (h.jump (.call false) (if_pos (hn ▸ hlt)))
  | threadsCreated hlt => exact h.jump .none (if_neg (hn ▸ hlt))
  | resolved => exact h.jump (.call true) rfl
  | resolveFailed => exact .leave (h.jump (.call false) rfl)
  | listenCreated =>
    refine h.write (.call true) rfl ?_ rfl
    rw [h.g]
    rfl
  | listenFailed =>
    refine .leave (h.write (.call false) rfl ?_ rfl)
    rw [h.g]
    rfl
  | bound => exact h.jump (.call true) rfl
  | bindFailed => exact .leave (h.jump (.call false) rfl)
  | @allocated x a hcs hx ha =>
    rw [← h.g] at hcs hx ha
    have hs : u.mainStep .allocate (.heap x) =
        some { u with
          g := (ctxtAllocate u.g.sdListen .clientIoAccept x u.g).1
          mainOwns := true
          freed := u.freed ++ x.freed u.g
          pc := .associate a } := by
      simp [mainStep, MainEnters, hcs, hx, ha]
    refine .of_step _ h.pc hs ⟨rfl, hn, ?_, h.cleanupEvent, fun _ => rfl⟩ rfl
    rw [h.g]
    rfl
  | noMemory hcs =>
    rw [← h.g] at hcs
    have hs : u.mainStep .allocate (.heap .noSocketContext) =
        some { u with
          g := u.g.enter.setCtxtListenSocket none, mainOwns := true, pc := .endServer } := by
      simp [mainStep, MainEnters, hcs, Allocation.fresh, ctxtAllocate]
    refine .leave (.of_step _ h.pc hs ⟨rfl, hn, ?_, h.cleanupEvent, fun _ => rfl⟩ rfl)
    rw [h.g]
    rfl
  | associated ha =>
    obtain ⟨hI, _, -, -, rfl⟩ := Shared.associate_true ha
    refine .of_step (.call true) h.pc rfl ⟨rfl, hn, ?_, h.cleanupEvent, h.mainOwns⟩ rfl
    show (u.g.setIocp true).setCtxtListenSocket _ = _
    rw [h.g, setIocp_self hI]
    rfl
  | associateFailed ha =>
    obtain ⟨-, rfl⟩ := Shared.associate_false ha
    refine .leave (.of_step (.call false) h.pc rfl ⟨rfl, hn, ?_, h.cleanupEvent, h.mainOwns⟩ rfl)
    show (((u.g.setIocp false).touch _).free _).setCtxtListenSocket none = _
    rw [h.g]
    rfl
  | @configured a ha =>
    rw [← h.g] at ha
    exact h.write (.call true) (Option.map_eq_some_iff.mpr ⟨a, ha, rfl⟩)
      (congrArg (Globals.touch · a) h.g) rfl
  | @ioctlFailed a ha =>
    rw [← h.g] at ha
    exact .leave (h.write (.call false) (Option.map_eq_some_iff.mpr ⟨a, ha, rfl⟩)
      (congrArg (Globals.touch · a) h.g) rfl)
  | created hc =>
    have hg := createAccept_globals hc
    rw [← h.g] at hg
    exact h.write (.call true) (Option.map_eq_some_iff.mpr ⟨_, hg, rfl⟩) rfl
      (Server.createAccept_cleanupEvent hc)
  | createFailed hc =>
    have hg := createAccept_globals hc
    rw [← h.g] at hg
    exact .leave (h.write (.call false) (Option.map_eq_some_iff.mpr ⟨_, hg, rfl⟩) rfl
      (Server.createAccept_cleanupEvent hc))
  | @acceptEx r _ hc =>
    have hg := acceptEx_globals hc
    rw [← h.g] at hg
    exact h.write (.call r.starts) (Option.map_eq_some_iff.mpr ⟨_, hg, rfl⟩) rfl
      (Server.acceptEx_cleanupEvent hc)
  | @waited ok hw =>
    rw [← h.cleanupEvent] at hw
    exact .leave (h.jump (.call ok) (if_neg hw))
  | cleanup =>
    have hs : u.mainStep .testPort .none =
        some (u.goto (if y.g.hIocp then .postQuit 0 else .rest .waitThreads)) := by
      rw [← h.g]
      rfl
    have hgets := h.jump _ hs
    split_ifs at hgets ⊢ <;> exact hgets
  | quitPosted hi hq =>
    exact h.write (.call true) (if_pos (hn ▸ hi)) h.g rfl
  | quitLost hi hq => exact h.jump (.call true) (if_pos (hn ▸ hi))
  | quitsPosted hi => exact h.jump .none (if_neg (hn ▸ hi))

/-! ## The finally block -/

/-- A step behind the wait for the threads. -/
theorem Stands.clean {rest : FinallyPc} {q : Globals × FinallyPc}
    (h : Stands n y o (.rest rest) u) (hq : rest.clean o y.g = some q) :
    u.Gets n (y.setG q.1) (o || rest == .ctxtListFree) (.rest q.2) := by
  have hclean : rest.clean u.mainOwns u.g = some q := by
    rw [h.g]
    cases rest with
    | ctxtListFree =>
      obtain ⟨henter, hq⟩ := Option.ite_none_right_eq_some.mp hq
      exact (if_pos (henter.imp_right h.mainOwns)).trans hq
    | _ => exact hq
  have hs : u.mainStep (.rest rest) .none =
      some { u.record rest with g := q.1, pc := .rest q.2 } := by
    rw [mainStep_rest, hclean]
    · rfl
    · rintro rfl
      cases hq
  refine .of_step _ h.pc hs ⟨rfl, h.dwThreadCount, rfl, h.cleanupEvent, fun ho => ?_⟩ rfl
  exact Bool.or_eq_true_iff.mpr ((Bool.or_eq_true_iff.mp ho).imp_left h.mainOwns)

/-- The wait for the threads, whatever it returns. -/
theorem Stands.waitThreads (h : Stands n y o (.rest .waitThreads) u) :
    u.Gets n y o (.rest .closeListen) :=
  h.jump (.wait .failed) rfl

end RestartLoop

/-! ## The iteration -/

/-- The call of `CtrlHandler` is about to set the event. -/
def CtrlHandler.setsEvent : CtrlHandler → Bool
  | .setEvent _ => true
  | _ => false

/-- A step of `main` or of `CtrlHandler`. -/
def FinallyAction.console : FinallyAction → Bool
  | .main _ | .server (.main _) | .server .ctrlEnd | .server .ctrlEvent => true
  | _ => false

/-- A step of `main` or of `CtrlHandler`, or an event for the latter. -/
def LoopAction.console : LoopAction → Bool
  | .main _ | .event _ | .handler _ => true
  | _ => false

namespace Finally

variable {f f' : Finally} {u : RestartLoop} {a : FinallyAction}

/-- The restart loop is where the iteration is. Until the port is created its handle may differ. -/
structure Iterates (f : Finally) (u : RestartLoop) : Prop where
  stands : ∃ h, (f.server.main ≠ .createPort → h = f.server.y.g.hIocp) ∧
    Stands f.server.dwThreadCount (f.server.y.setG (f.server.y.g.setIocp h)) f.mainOwns
      (f.server.main.inLoop f.rest) u
  waits : f.server.main ≠ .join → f.rest = .waitThreads
  handlers : f.server.handlers ≤ u.handlers.countP CtrlHandler.setsEvent

/-- The restart loop gets from `u` to where the iteration is in `f'`. -/
def Follows (u : RestartLoop) (f' : Finally) : Prop :=
  ∃ (as : List LoopAction) (u' : RestartLoop), (∀ a ∈ as, a.console = true) ∧
    RestartLoop.machine.run u as = some u' ∧ Iterates f' u'

theorem Iterates.same (h : Iterates f u) (hm : f.server.main ≠ .createPort) :
    Stands f.server.dwThreadCount f.server.y f.mainOwns (f.server.main.inLoop f.rest) u := by
  obtain ⟨b, hb, hst⟩ := h.stands
  obtain rfl := hb hm
  exact hst

theorem follows_of_gets
    (h : u.Gets f'.server.dwThreadCount f'.server.y f'.mainOwns (f'.server.main.inLoop f'.rest))
    (hw : f'.server.main ≠ .join → f'.rest = .waitThreads)
    (hh : f'.server.handlers ≤ u.handlers.countP CtrlHandler.setsEvent) : Follows u f' := by
  obtain ⟨answers, u', hrun, hst, hkept⟩ := h
  exact ⟨answers.map .main, u', List.forall_mem_map.mpr fun _ _ => rfl, hrun,
    ⟨_, fun _ => rfl, hst⟩, hw, hkept ▸ hh⟩

/-- `main` from its wait for the threads on. -/
theorem Iterates.main (h : Iterates f u) {ans : Answer} (hs : f.step (.main ans) = some f') :
    Follows u f' := by
  obtain ⟨hjoin, hs⟩ := Option.ite_none_right_eq_some.mp hs
  obtain ⟨⟨y', rest'⟩, hrest, rfl⟩ := Option.map_eq_some_iff.mp hs
  have hst := h.same (by rw [hjoin]; nofun)
  rw [hjoin] at hst
  refine follows_of_gets ?_ (fun hne => absurd hjoin hne) h.handlers
  show u.Gets _ y' _ (f.server.main.inLoop rest')
  rw [hjoin]
  obtain ⟨hwait, hq⟩ | ⟨p, hp, hq⟩ := FinallyPc.step_cases hrest
  · obtain ⟨rfl, rfl⟩ := Prod.mk.inj hq
    rw [hwait] at hst
    exact hst.waitThreads.mono (by simp [hwait])
  · obtain ⟨rfl, rfl⟩ := Prod.mk.inj hq
    exact hst.clean hp

/-- `main` up to that. The creation of the port makes up for a handle that differs. -/
theorem Iterates.server (h : Iterates f u) {ans : Answer}
    (hs : f.step (.server (.main ans)) = some f') : Follows u f' := by
  obtain ⟨-, hs⟩ := Option.ite_none_left_eq_some.mp hs
  obtain ⟨server', hserver, rfl⟩ := Option.map_eq_some_iff.mp hs
  obtain ⟨⟨⟨y', main'⟩, ws⟩, hq, rfl⟩ := Option.map_eq_some_iff.mp hserver
  have hstep := MainPc.step_cases hq
  have hwait : f.rest = .waitThreads := by
    refine h.waits fun hjoin => ?_
    rw [hjoin] at hstep
    cases hstep
  obtain ⟨b, hb, hst⟩ := h.stands
  have hstep : MainStep f.server.dwThreadCount (f.server.y.setG (f.server.y.g.setIocp b))
      f.server.main ans y' main' ws := by
    by_cases hm : f.server.main = .createPort
    · rw [hm] at hstep ⊢
      cases hstep with
      | portCreated => exact .portCreated
      | portFailed => exact .portFailed
    · obtain rfl := hb hm
      exact hstep
  rw [hwait] at hst
  refine follows_of_gets ?_ (fun _ => hwait) h.handlers
  show u.Gets _ y' _ (main'.inLoop f.rest)
  rw [hwait]
  exact (hst.step hstep).mono fun ho => (Bool.and_eq_true_iff.mp ho).1

/-- The first write of `CtrlHandler`, which an event has called. -/
theorem Iterates.ctrlEnd (h : Iterates f u) (hs : f.step (.server .ctrlEnd) = some f') :
    Follows u f' := by
  obtain ⟨-, hs⟩ := Option.ite_none_left_eq_some.mp hs
  obtain ⟨_, ⟨⟩, rfl⟩ := Option.map_eq_some_iff.mp hs
  obtain ⟨b, hb, hst⟩ := h.stands
  have hrun : RestartLoop.machine.run u [.event false, .handler u.handlers.length] =
      some { u with
        g := u.g.endServer, handlers := u.handlers ++ [CtrlHandler.setEvent false] } := by
    simp [Machine.run, RestartLoop.machine, RestartLoop.step, RestartLoop.handlerStep]
  refine ⟨_, _, by simp [LoopAction.console], hrun, ⟨b, hb, hst.pc, hst.dwThreadCount,
    congrArg Globals.endServer hst.g, hst.cleanupEvent, fun ho => ?_⟩, h.waits, ?_⟩
  · exact hst.mainOwns (Bool.and_eq_true_iff.mp ho).1
  · show f.server.handlers + 1 ≤ (u.handlers ++ [CtrlHandler.setEvent false]).countP _
    rw [List.countP_append]
    exact Nat.add_le_add_right h.handlers 1

/-- The second one. -/
theorem Iterates.ctrlEvent (h : Iterates f u) (hs : f.step (.server .ctrlEvent) = some f') :
    Follows u f' := by
  obtain ⟨-, hs⟩ := Option.ite_none_left_eq_some.mp hs
  obtain ⟨server', hserver, rfl⟩ := Option.map_eq_some_iff.mp hs
  obtain ⟨hne, hserver⟩ := Option.ite_none_left_eq_some.mp hserver
  obtain rfl := Option.some.inj hserver
  obtain ⟨b, hb, hst⟩ := h.stands
  obtain ⟨c, hc, hset⟩ := List.countP_pos_iff.mp
    (lt_of_lt_of_le (Nat.pos_of_ne_zero hne) h.handlers)
  obtain ⟨brk, rfl⟩ : ∃ brk, c = .setEvent brk := by
    cases c with
    | setEvent brk => exact ⟨brk, rfl⟩
    | _ => cases hset
  obtain ⟨i, hi⟩ := List.mem_iff_getElem?.mp hc
  have hcount := countP_eraseIdx_add CtrlHandler.setsEvent hi
  rw [if_pos hset] at hcount
  refine ⟨[.handler i], u.handlerStep i (.setEvent brk), by simp [LoopAction.console], ?_,
    ⟨b, hb, hst.pc, hst.dwThreadCount, hst.g, rfl, fun ho => ?_⟩, h.waits, ?_⟩
  · simp [Machine.run, RestartLoop.machine, RestartLoop.step, hi]
  · exact hst.mainOwns (Bool.and_eq_true_iff.mp ho).1
  · have := h.handlers
    show f.server.handlers - 1 ≤ (u.handlers.eraseIdx i).countP _
    omega

/-- Whatever `main` and `CtrlHandler` do in the iteration, they do in the restart loop. -/
theorem Iterates.step (h : Iterates f u) (ha : a.console = true) (hs : f.step a = some f') :
    Follows u f' := by
  cases a with
  | main ans => exact h.main hs
  | server b =>
    cases b with
    | main ans => exact h.server hs
    | ctrlEnd => exact h.ctrlEnd hs
    | ctrlEvent => exact h.ctrlEvent hs
    | _ => cases ha

theorem Iterates.run (h : Iterates f u) {as : List FinallyAction} (ha : ∀ a ∈ as, a.console = true)
    (hs : machine.run f as = some f') : Follows u f' := by
  induction as generalizing f u with
  | nil =>
    obtain rfl := Option.some.inj hs
    exact ⟨[], u, List.forall_mem_nil _, rfl, h⟩
  | cons a as ih =>
    obtain ⟨ha, hrest⟩ := List.forall_mem_cons.mp ha
    obtain ⟨g, hg, hs⟩ := Option.bind_eq_some_iff.mp hs
    obtain ⟨bs, v, hbs, hv, hgv⟩ := h.step ha hg
    obtain ⟨cs, w, hcs, hw, hfw⟩ := ih hgv hrest hs
    refine ⟨bs ++ cs, w, fun b hb => (List.mem_append.mp hb).elim (hbs b) (hcs b), ?_, hfw⟩
    rw [Machine.run_append, hv]
    exact hw

end Finally

/-- **One iteration.** From the start of the program on, whatever `main` and `CtrlHandler` make of
the server and its finally block they make of the restart loop as well: `main` comes to the same
statement, and the globals are the same. -/
theorem iteration (dwNumberOfProcessors : UInt32) (bVerbose : Bool) {as : List FinallyAction}
    (ha : ∀ a ∈ as, a.console = true) {f : Finally}
    (hs : Finally.machine.run
      ⟨.initial (dwNumberOfProcessors * 2).toNat bVerbose, .waitThreads, false⟩ as = some f)
    (hm : f.server.main ≠ .createPort) :
    ∃ bs s, (∀ b ∈ bs, LoopAction.console b = true) ∧
      RestartLoop.machine.run (.initial dwNumberOfProcessors) bs = some s ∧
      s.pc = f.server.main.inLoop f.rest ∧ s.g = f.server.y.g := by
  let start : List LoopAction := [.main (.call true), .main (.call true), .main .none, .main .none,
    .main .none, .main .none]
  obtain ⟨u, hu, hpc, hn, hg, he⟩ : ∃ u,
      RestartLoop.machine.run (.initial dwNumberOfProcessors) start = some u ∧
      u.pc = .createPort ∧ u.dwThreadCount = (dwNumberOfProcessors * 2).toNat ∧
      u.g = Globals.initial.setIocp false ∧ u.cleanupEvent = false := ⟨_, rfl, rfl, rfl, rfl, rfl⟩
  have h : Finally.Iterates
      ⟨.initial (dwNumberOfProcessors * 2).toNat bVerbose, .waitThreads, false⟩ u :=
    ⟨⟨false, fun h => absurd rfl h, hpc, hn, hg, he, nofun⟩, fun _ => rfl, Nat.zero_le _⟩
  obtain ⟨bs, v, hbs, hv, hfv⟩ := h.run ha hs
  refine ⟨start ++ bs, v, fun b hb => (List.mem_append.mp hb).elim ?_ (hbs b), ?_,
    (hfv.same hm).pc, (hfv.same hm).g⟩
  · exact List.all_eq_true.mp (rfl : start.all LoopAction.console = true) b
  · rw [Machine.run_append, hu]
    exact hv

end SelfStudy.Iocp
