import SelfStudy.Iocp.Effect

/-!
# The startup of the server

`main` up to its call of AcceptEx, while the workers wait at an empty port: `Startup` holds until a
step fails and `main` sets `g_bEndServer`, or the first AcceptEx is posted.
-/

namespace SelfStudy.Iocp

open Lib Globals

/-- `main` has not yet called AcceptEx. -/
def MainPc.startup : MainPc → Bool
  | .wait | .cleanup | .postQuit _ | .join => false
  | _ => true

/-- A new worker starts with its first dequeue. -/
theorem MainStep.workers {n : ℕ} {y y' : Shared} {pc pc' : MainPc} {ans : Answer}
    {ws : List WorkerPc} (h : MainStep n y pc ans y' pc' ws) : ∀ w ∈ ws, w = .getStatus := by
  cases h with
  | threadCreated => exact fun w hw => List.mem_singleton.mp hw
  | _ => exact nofun

/-- After the startup `main` waits, ends the server and posts quit packets. -/
theorem MainStep.served {n : ℕ} {y y' : Shared} {pc pc' : MainPc} {ans : Answer}
    {ws : List WorkerPc} (h : MainStep n y pc ans y' pc' ws) (hpc : pc.startup = false) :
    (y'.g = y.g ∨ y'.g = y.g.endServer) ∧ y'.key = y.key ∧ y'.outstanding = y.outstanding ∧
      pc'.startup = false ∧ ws = [] := by
  cases h with
  | waited => exact ⟨.inr rfl, rfl, rfl, rfl, rfl⟩
  | quitPosted | quitLost | quitsPosted => exact ⟨.inl rfl, rfl, rfl, rfl, rfl⟩
  | cleanup =>
    refine ⟨.inl rfl, rfl, rfl, ?_, rfl⟩
    split_ifs <;> rfl
  | _ => cases hpc

namespace Shared

/-- What `main` knows of the listening context as it creates it. -/
def MainOk (y : Shared) : MainPc → Prop
  | .createPort | .createThread _ | .getaddrinfo | .listenSocket | .bindListen | .allocate =>
    y.g.pCtxtListenSocket = none ∧ y.g.hIocp = true
  | .associate a => y.g.pCtxtListenSocket = none ∧ y.g.hIocp = true ∧
    (y.g.live a = true ∧ y.HasOp a .clientIoAccept ∨ y.g.io a = none)
  | .ioctl | .createSocket | .acceptEx =>
    ∃ a, y.g.pCtxtListenSocket = some a ∧ (y.Listening a ∨ y.g.io a = none)
  | _ => True

/-- The state during the startup and at its end: nothing is in flight but the AcceptEx that `main`
has posted, and the only context is the one it is about to listen with. -/
structure Startup (y : Shared) (pc : MainPc) : Prop where
  outstanding : y.outstanding = [] ∨ pc.startup = false ∧
    ∃ op, y.outstanding = [op] ∧ op.isAccept = true ∧ y.OpOk op
  port : y.port = []
  main : y.MainOk pc
  numbered : y.g.Numbered
  owned : y.g.bEndServer = false → ∀ a, y.g.live a = true →
    y.g.pCtxtListenSocket = some a ∨ pc = .associate a

variable {y y' : Shared} {pc pc' : MainPc} {g : Globals}

theorem Startup.nothing (h : y.Startup pc) (hpc : pc.startup = true) : y.outstanding = [] := by
  rcases h.outstanding with ho | ⟨hf, -⟩
  · exact ho
  · rw [hf] at hpc
    cases hpc

/-- `main` gives up: it sets `g_bEndServer` and goes to the finally block. -/
theorem Startup.leave (hy : y.outstanding = [] ∧ y.port = []) (hn : y.g.Numbered) :
    Startup y.leave.1 y.leave.2 where
  outstanding := .inl hy.1
  port := hy.2
  main := trivial
  numbered := ⟨hn.lt, hn.inj, hn.nodup, hn.closed⟩
  owned := nofun

/-- `main` goes on with the contexts as they are. -/
theorem Startup.next (h : y.Startup pc) (hy : y'.outstanding = [] ∧ y'.port = [])
    (hn : y'.g.Numbered) (hend : y'.g.bEndServer = y.g.bEndServer) (hlive : y'.g.live = y.g.live)
    (hl : ∀ a, y.g.pCtxtListenSocket = some a ∨ pc = .associate a →
      y'.g.pCtxtListenSocket = some a ∨ pc' = .associate a) (hok : y'.MainOk pc') :
    Startup y' pc' where
  outstanding := .inl hy.1
  port := hy.2
  main := hok
  numbered := hn
  owned he a ha := hl a (h.owned (hend ▸ he) a (by rwa [hlive] at ha))

theorem Startup.allocate {n : ℕ} {ans : Answer} {ws : List WorkerPc} (h : y.Startup .allocate)
    (hs : MainStep n y .allocate ans y' pc' ws) : y'.Startup pc' := by
  have ho := h.nothing rfl
  have hmain : y.g.pCtxtListenSocket = none ∧ y.g.hIocp = true := h.main
  cases hs with
  | noMemory =>
    exact Startup.leave ⟨ho, h.port⟩
      ⟨h.numbered.lt, h.numbered.inj, h.numbered.nodup, h.numbered.closed⟩
  | @allocated x a _ hx hc =>
    obtain ⟨hlisten, -, hI, hend⟩ := ctxtAllocate_globals y.g.sdListen .clientIoAccept x y.g
    obtain ⟨hA, -, hnew⟩ := ctxtAllocate_spec hc
    refine ⟨.inl ho, h.port, ⟨hlisten.trans hmain.1, hI.trans hmain.2, ?_⟩,
      h.numbered.allocate hc, fun he b hb => ?_⟩
    · rcases hnew with ⟨-, hl, -, hi⟩ | ⟨-, -, hi⟩
      · exact .inl ⟨hl, _, hi, rfl⟩
      · exact .inr hi
    · by_cases e : b = a
      · exact .inr (e ▸ rfl)
      · rcases h.owned (hend.symm.trans he) b ((hA b e).live.symm.trans hb) with hl | hl
        · exact .inl (hlisten.trans hl)
        · cases hl

theorem Startup.associate {n : ℕ} {ans : Answer} {ws : List WorkerPc} {a : Addr}
    (h : y.Startup (.associate a)) (hs : MainStep n y (.associate a) ans y' pc' ws) :
    y'.Startup pc' := by
  have ho := h.nothing rfl
  obtain ⟨hlisten, hI, hnew⟩ := h.main
  cases hs with
  | associated hy₁ =>
    obtain ⟨-, sd, hsd, -, rfl⟩ := associate_true hy₁
    refine h.next ⟨ho, h.port⟩ ?_ rfl rfl (fun b hb => ?_) ⟨a, rfl, ?_⟩
    · exact ⟨h.numbered.lt, h.numbered.inj, h.numbered.nodup, h.numbered.closed⟩
    · rcases hb with hb | hb
      · rw [hlisten] at hb
        cases hb
      · cases hb
        exact .inl rfl
    · rcases hnew with ⟨hl, hop⟩ | hdead
      · exact .inl ⟨hl, rfl, ⟨sd, hsd, Function.update_self ..⟩, hop, hI⟩
      · exact .inr hdead
  | associateFailed hy₁ =>
    obtain ⟨-, rfl⟩ := associate_false hy₁
    refine Startup.leave ⟨ho, h.port⟩ ?_
    have hK : Keeps y.g ((y.g.setIocp false).touch a |>.free a) none := by
      constructor <;> intros <;> rfl
    have hn := h.numbered.shrink hK (fun b hb => ?_) rfl
    · exact ⟨hn.lt, hn.inj, hn.nodup, hn.closed⟩
    · by_cases e : b = a
      · rw [e] at hb
        exact absurd hb (by simp)
      · rwa [Globals.free_live, Function.update_of_ne e] at hb

/-- Without an I/O context `main` gets no further. -/
theorem MainOk.listening (h : ∃ a, y.g.pCtxtListenSocket = some a ∧ (y.Listening a ∨ y.g.io a = none))
    {f : Addr → Option Shared}
    (hf : (y.g.pCtxtListenSocket.bind fun a => if (y.g.io a).isSome then f a else none) = some y') :
    ∃ a, y.Listening a := by
  obtain ⟨a, ha, hL | hdead⟩ := h
  · exact ⟨a, hL⟩
  · rw [ha, Option.bind_some, hdead] at hf
    cases hf

theorem Startup.createSocket {ok : Bool} (h : y.Startup .createSocket)
    (hc : y.createAccept ok = some y') : ∃ a, Within y.g y'.g (some a) ∧
      (y'.outstanding = [] ∧ y'.port = []) ∧ y'.Listening a := by
  obtain ⟨a, hL⟩ := MainOk.listening h.main hc
  obtain ⟨W, -, ho, hp, hL'⟩ := createAccept_spec hc hL
  exact ⟨a, W, ⟨ho.trans (h.nothing rfl), hp.trans h.port⟩, hL'⟩

theorem Startup.acceptEx {r : CallResult} (h : y.Startup .acceptEx) (hc : y.acceptEx r = some y') :
    y'.Startup .wait := by
  have ho := h.nothing rfl
  obtain ⟨a, hL⟩ := MainOk.listening h.main hc
  obtain ⟨W, -, hp, hstart⟩ := acceptEx_spec hc hL
  refine ⟨?_, hp.trans h.port, trivial, h.numbered.within W, fun he b hb => ?_⟩
  · split_ifs at hstart with hr
    · obtain ⟨op, ho₁, hacc, hop⟩ := hstart
      rw [ho] at ho₁
      exact .inr ⟨rfl, op, ho₁, hacc, hop⟩
    · exact .inl (hstart ▸ ho)
  · rcases h.owned (W.bEndServer.symm.trans he) b (by rw [← W.live]; exact hb) with hl | hl
    · exact .inl (W.pCtxtListenSocket.trans hl)
    · cases hl

/-- **The startup.** -/
theorem Startup.step {n : ℕ} {ans : Answer} {ws : List WorkerPc} (h : y.Startup pc)
    (hpc : pc.startup = true) (hs : MainStep n y pc ans y' pc' ws) :
    y'.Startup pc' ∧ ∀ w ∈ ws, w = .getStatus := by
  have hy : y.outstanding = [] ∧ y.port = [] := ⟨h.nothing hpc, h.port⟩
  -- a step that writes to globals only
  have hglobals : ∀ {g : Globals}, g.ctxt = y.g.ctxt → g.live = y.g.live → g.serial = y.g.serial →
      g.closeCalls = y.g.closeCalls → g.Numbered := by
    intro g hc hl hser hcl
    refine ⟨?_, ?_, ?_, ?_⟩
    · rw [hc, hl, hser]
      exact h.numbered.lt
    · rw [hc, hl]
      exact h.numbered.inj
    · rw [hcl]
      exact h.numbered.nodup
    · rw [hc, hl, hser, hcl]
      exact h.numbered.closed
  cases hs with
  | portCreated =>
    exact ⟨h.next hy (hglobals rfl rfl rfl rfl) rfl rfl (fun a => .imp id nofun) ⟨h.main.1, rfl⟩, nofun⟩
  | threadCreated =>
    exact ⟨h.next hy h.numbered rfl rfl (fun a => .imp id nofun) h.main, by simp⟩
  | threadsCreated | resolved | bound =>
    exact ⟨h.next hy h.numbered rfl rfl (fun a => .imp id nofun) h.main, nofun⟩
  | listenCreated =>
    exact ⟨h.next hy (hglobals rfl rfl rfl rfl) rfl rfl (fun a => .imp id nofun) h.main, nofun⟩
  | portFailed | listenFailed | ioctlFailed =>
    exact ⟨Startup.leave hy (hglobals rfl rfl rfl rfl), nofun⟩
  | threadFailed | resolveFailed | bindFailed => exact ⟨Startup.leave hy h.numbered, nofun⟩
  | allocated hcs hx hc => exact ⟨h.allocate (@MainStep.allocated n y _ _ hcs hx hc), nofun⟩
  | noMemory hcs => exact ⟨h.allocate (@MainStep.noMemory n y hcs), nofun⟩
  | associated hc => exact ⟨h.associate (@MainStep.associated n y _ _ hc), nofun⟩
  | associateFailed hc => exact ⟨h.associate (@MainStep.associateFailed n y _ _ hc), nofun⟩
  | @configured a ha =>
    obtain ⟨b, hb, hL⟩ := h.main
    have F : y.Frame (y.setG (y.g.touch a)) none false := .quiet (within_touch a) rfl
    exact ⟨h.next hy (hglobals rfl rfl rfl rfl) rfl rfl (fun a => .imp id nofun)
      ⟨b, hb, hL.imp_left fun hL => (hL.agree F).1⟩, nofun⟩
  | created hc =>
    obtain ⟨a, W, hy', hL⟩ := h.createSocket hc
    refine ⟨h.next hy' (h.numbered.within W) W.bEndServer W.live (fun b hb => ?_)
      ⟨a, hL.listen, .inl hL⟩, nofun⟩
    rcases hb with hb | hb
    · exact .inl (W.pCtxtListenSocket.trans hb)
    · cases hb
  | createFailed hc =>
    obtain ⟨a, W, hy', -⟩ := h.createSocket hc
    exact ⟨Startup.leave hy' (h.numbered.within W), nofun⟩
  | acceptEx hc => exact ⟨h.acceptEx hc, nofun⟩
  | waited | cleanup | quitPosted | quitLost | quitsPosted => cases hpc

/-- The other threads leave `main` its knowledge. -/
theorem MainOk.agree (h : y.MainOk pc) (F : y.Frame y' none false) : y'.MainOk pc := by
  obtain ⟨hI, hA⟩ := F.listen rfl
  cases pc with
  | createPort | createThread | getaddrinfo | listenSocket | bindListen | allocate =>
    exact ⟨F.pCtxtListenSocket.trans h.1, hI.trans h.2⟩
  | associate a =>
    have A := hA a nofun
    refine ⟨F.pCtxtListenSocket.trans h.1, hI.trans h.2.1, ?_⟩
    rw [A.live, A.io]
    exact h.2.2.imp_left fun ⟨hl, hop⟩ => ⟨hl, hop.agree A⟩
  | ioctl | createSocket | acceptEx =>
    obtain ⟨a, ha, h⟩ := h
    refine ⟨a, F.pCtxtListenSocket.trans ha, ?_⟩
    rw [(hA a nofun).io]
    exact h.imp_left fun hL => (hL.agree F).1
  | wait | cleanup | postQuit | join => trivial

theorem Startup.agree (h : y.Startup pc) (F : y.Frame y' none false)
    (ho : y'.outstanding = y.outstanding) (hp : y'.port = y.port) (hn : y'.g.Numbered)
    (hend : y'.g.bEndServer = false → y.g.bEndServer = false) : y'.Startup pc where
  outstanding := by
    rw [ho]
    rcases h.outstanding with ho' | ⟨hpc, op, hop, ha, hok⟩
    · exact .inl ho'
    · exact .inr ⟨hpc, op, hop, ha, hok.keep F⟩
  port := hp.trans h.port
  main := MainOk.agree h.main F
  numbered := hn
  owned he a ha := by
    rw [F.pCtxtListenSocket]
    exact h.owned (hend he) a (((F.listen rfl).2 a nofun).live.symm.trans ha)

end Shared

end SelfStudy.Iocp
