import SelfStudy.Iocp.Sockets

/-!
# Every socket has one owner

`Owned` is carried over every step of the server in which the heap gives what it is asked for: an
accept gives its socket to the new client or takes it back, `CloseClient` closes the socket of its
client, and `CreateAcceptSocket` makes the next one for the listening context.
-/

namespace SelfStudy.Iocp

open Lib Globals

namespace Server

/-! ## The invariant -/

/-- A worker has given the accept socket to its new client and not replaced it yet. -/
def HandedOver (s : Server) : Prop := ∃ pc ∈ s.workers, pc.handedOver = true

/-- The socket is referenced there. -/
def Refers (s : Server) : SocketRef → Socket → Prop
  | .sdListen, sd => s.y.g.sdListen = some sd
  | .socketAccept, sd => s.y.g.acceptSocket = some sd
  | .socket a, sd => s.ClientContext a ∧ (s.y.g.ctxt a).socket = some sd

/-- Each socket has one owner, and before `main` makes a socket the reference for it is empty. -/
structure Owned (s : Server) : Prop extends s.y.g.SocketsOwned s.main s.HandedOver where
  handing : Handing s
  unlistened : s.main.unlistened = true → s.y.g.sdListen = none
  unaccepted : s.main.unaccepted = true → s.y.g.acceptSocket = none

variable {s s' : Server} {y y' : Shared} {pc pc' : WorkerPc} {i : ℕ} {a : Addr} {handed : Prop}

theorem action_gives {b : Action} (h : b.HeapOk) : b.GivesIoContext := by
  cases b with
  | worker i ans | main ans =>
    cases ans with
    | heap x =>
      obtain ⟨a, rfl⟩ := h
      exact nofun
    | _ => trivial
  | _ => trivial

/-- The worker in the accept case is the only one there. -/
theorem Inv.handedOver_iff (h : Inv s) (hi : s.workers[i]? = some pc)
    (hacc : pc.accepting = true) : s.HandedOver ↔ pc.handedOver = true := by
  refine ⟨fun hw => ?_, fun hpc => ⟨pc, List.mem_of_getElem? hi, hpc⟩⟩
  obtain ⟨w, hw, hov⟩ := hw
  obtain ⟨j, hj⟩ := List.getElem?_of_mem hw
  by_cases hij : i = j
  · subst hij
    exact Option.some.inj (hi.symm.trans hj) ▸ hov
  · have := (h.workers_apart hi hj hij).2 (WorkerPc.handedOver_spec hov).1
    rw [this] at hacc
    cases hacc

theorem Inv.handedOver_set (h : Inv s) (hi : s.workers[i]? = some pc)
    (hacc : pc.accepting = true) :
    HandedOver { s with y := y', workers := s.workers.set i pc' } ↔ pc'.handedOver = true := by
  have hlt := (List.getElem?_eq_some_iff.mp hi).1
  refine ⟨fun hw => ?_, fun hpc => ⟨pc', List.mem_set hlt pc', hpc⟩⟩
  obtain ⟨w, hw, hov⟩ := hw
  obtain ⟨j, hj⟩ := List.getElem?_of_mem hw
  rcases mem_of_getElem?_set hj with ⟨-, rfl⟩ | ⟨hji, hj'⟩
  · exact hov
  · have := (h.workers_apart hi hj' (Ne.symm hji)).2 (WorkerPc.handedOver_spec hov).1
    rw [this] at hacc
    cases hacc

theorem handedOver_same (hi : s.workers[i]? = some pc) (e : pc'.handedOver = pc.handedOver) :
    HandedOver { s with y := y', workers := s.workers.set i pc' } ↔ s.HandedOver :=
  exists_mem_set_iff hi (by rw [e])

/-- A step that moves no socket. -/
theorem Owned.same {m : MainPc} {n : ℕ} {ws : List WorkerPc} (h : Owned s)
    (S : SameSockets s.y.g y'.g)
    (hh : Handing { s with y := y', main := m, handlers := n, workers := ws })
    (ho : HandedOver { s with y := y', main := m, handlers := n, workers := ws } ↔ s.HandedOver)
    (hm : ∀ a, m = .associate a ↔ s.main = .associate a)
    (hl : m.unlistened = true → s.main.unlistened = true)
    (ha : m.unaccepted = true → s.main.unaccepted = true) :
    Owned { s with y := y', main := m, handlers := n, workers := ws } where
  toSocketsOwned := h.toSocketsOwned.same S hm ho
  handing := hh
  unlistened hpc := S.sdListen.trans (h.unlistened (hl hpc))
  unaccepted hpc := S.acceptSocket.trans (h.unaccepted (ha hpc))

/-! ## The steps of a worker -/

/-- After the startup `main` has made its sockets. -/
theorem served_main {m : MainPc} (h : m.startup = false) :
    (∀ a, m ≠ .associate a) ∧ m.unlistened ≠ true ∧ m.unaccepted ≠ true := by
  cases m with
  | wait | cleanup | postQuit | join => exact ⟨nofun, nofun, nofun⟩
  | _ => cases h

/-- The client of the worker is closed, at its end or in the accept case. -/
theorem Owned.close {g' : Globals} (h : Owned s) (hm : s.main.startup = false)
    (hC : s.y.IsClient a) (hc : closeClient a s.y.g = some g')
    (hh : Handing { s with y := s.y.setG g', workers := s.workers.set i pc' })
    (ho : HandedOver { s with y := s.y.setG g', workers := s.workers.set i pc' } ↔ s.HandedOver) :
    Owned { s with y := s.y.setG g', workers := s.workers.set i pc' } := by
  obtain ⟨hassoc, hunl, huna⟩ := served_main hm
  exact ⟨(h.toSocketsOwned.closeClient hc hC.live hC.ne (hassoc a)).same (.refl g') (fun _ => Iff.rfl) ho,
    hh, fun hpc => absurd hpc hunl, fun hpc => absurd hpc huna⟩

theorem Owned.allocate {k c : Addr} {n : ℕ} {io : PerIoContext} {g' : Globals} (h : Owned s)
    (hm : s.main.startup = false) (hi : s.workers[i]? = some (.allocate k n))
    (hL : s.y.Listening k) (hlive : s.y.g.live c = false) (hio : s.y.g.io k = some io)
    (hg : (ctxtAllocate io.socketAccept .clientIoAccept (.ok c) (s.y.g.touch k)).1 = g')
    (hh : Handing { s with
      y := s.y.setG g', workers := s.workers.set i (.associate k n io.socketAccept c) }) :
    Owned { s with
      y := s.y.setG g', workers := s.workers.set i (.associate k n io.socketAccept c) } := by
  obtain ⟨hassoc, hunl, huna⟩ := served_main hm
  have hover : ¬ s.HandedOver := by
    rw [h.handing.inv.handedOver_iff hi rfl]
    exact nofun
  have hover' : HandedOver { s with
      y := s.y.setG g', workers := s.workers.set i (.associate k n io.socketAccept c) } :=
    (h.handing.inv.handedOver_set hi rfl).mpr rfl
  have ht := h.toSocketsOwned.same (sameSockets_touch k) (fun _ => Iff.rfl) Iff.rfl
  exact ⟨ht.allocate hL.listen hL.live hio hlive hassoc hover hover' hg, hh, fun hpc => absurd hpc hunl,
    fun hpc => absurd hpc huna⟩

/-- A failed association frees the client, and the accept socket stays with the listening context. -/
theorem Owned.associateFailed {k c : Addr} {n : ℕ} {sd : Option Socket} (h : Owned s)
    (hm : s.main.startup = false) (hi : s.workers[i]? = some (.associate k n sd c))
    (hpc : s.y.PcOk (.associate k n sd c)) (hc : s.y.associate sd c false = some y')
    (hh : Handing { s with y := y', workers := s.workers.set i .setEvent }) :
    Owned { s with y := y', workers := s.workers.set i .setEvent } := by
  obtain ⟨hassoc, hunl, huna⟩ := served_main hm
  obtain ⟨hL, hacc, hne, hnew⟩ := hpc
  have hmem : WorkerPc.associate k n sd c ∈ s.workers := List.mem_of_getElem? hi
  have hI := h.handing.handed c (.inr (.inr ⟨_, hmem, rfl⟩))
  have hsd : (s.y.g.ctxt c).socket = sd := by
    rcases hnew with ⟨-, hsd, -⟩ | ⟨hd, -⟩
    · exact hsd
    · rw [hI.1] at hd
      cases hd
  obtain ⟨-, rfl⟩ := Shared.associate_false hc
  have hlive : ∀ b, b ≠ c →
      (((s.y.g.setIocp false).touch c).free c).live b = s.y.g.live b :=
    fun b hb => Function.update_of_ne hb ..
  have A : ApartFrom s.y.g (((s.y.g.setIocp false).touch c).free c) c :=
    ⟨rfl, rfl, rfl, rfl, hlive, fun _ _ => rfl, rfl⟩
  refine ⟨⟨h.nodup, A.unshare h.holding ?_ ?_ ?_ fun o => ?_, fun b hb hnb => ?_⟩, hh,
    fun hpc => absurd hpc hunl, fun hpc => absurd hpc huna⟩
  · exact (h.handing.inv.handedOver_iff hi rfl).mpr rfl
  · rw [h.handing.inv.handedOver_set hi rfl]
    exact nofun
  · exact Function.update_self ..
  · rw [acceptSocket_of_listening hL.listen, hacc]
    exact ⟨fun hx => hsd.symm.trans hx.2.2.2, fun hx => ⟨hI.1, hne, hassoc c, hsd.trans hx⟩⟩
  · refine h.noAccept b ?_ hnb
    by_cases e : b = c
    · rw [e]
      exact hI.1
    · exact (hlive b e).symm.trans hb

theorem Owned.createSocket {ok : Bool} (h : Owned s) (hm : s.main.startup = false)
    (hi : s.workers[i]? = some .createSocket)
    (hc : s.y.createAccept ok = some y') (hov : pc'.handedOver = false)
    (hh : Handing { s with y := y', workers := s.workers.set i pc' }) :
    Owned { s with y := y', workers := s.workers.set i pc' } := by
  obtain ⟨-, hunl, huna⟩ := served_main hm
  obtain ⟨k, io, hk, hio, rfl⟩ := Shared.createAccept_cases hc
  have hover := (h.handing.inv.handedOver_iff hi rfl).mpr rfl
  refine ⟨h.toSocketsOwned.createAccept hk hio (fun sd hx => hx.1 hover) (fun a => Iff.rfl) ?_ rfl, hh,
    fun hpc => absurd hpc hunl, fun hpc => absurd hpc huna⟩
  rw [h.handing.inv.handedOver_set hi rfl, hov]
  exact nofun

theorem allocate_step_ok {v : Bool} {ans : Answer} {k : Addr} {n : ℕ}
    (h : WorkerPc.step v y (.allocate k n) ans = some (y', pc'))
    (hC : (Action.worker i ans).HeapOk) : ∃ c, y.g.live c = false ∧ ∃ io, ans = .heap (.ok c) ∧
      y.g.io k = some io ∧
      y' = y.setG (ctxtAllocate io.socketAccept .clientIoAccept (.ok c) (y.g.touch k)).1 ∧
      pc' = .associate k n io.socketAccept c := by
  cases ans with
  | heap x =>
    obtain ⟨c, rfl⟩ := hC
    obtain ⟨hx, h⟩ := Option.ite_none_right_eq_some.mp h
    obtain ⟨io, hio, h⟩ := Option.map_eq_some_iff.mp h
    obtain ⟨rfl, rfl⟩ := Prod.mk.inj h
    exact ⟨c, by simpa using hx.2, io, rfl, hio, rfl, rfl⟩
  | _ => cases h

/-- **A step of a worker.** -/
theorem Owned.worker {ans : Answer} (h : Owned s) (hs : s.step (.worker i ans) = some s')
    (hC : (Action.worker i ans).HeapOk) : Owned s' := by
  have hh := h.handing.step hs (action_gives hC)
  cases step_cases hs with
  | @worker _ _ pc y' pc' hi hq =>
    have hstep : WorkerStep s.bVerbose s.y pc y' pc' := WorkerPc.step_cases hq
    have hm := h.handing.inv.worker_startup hi hstep
    have hpc := h.handing.inv.workers pc (List.mem_of_getElem? hi)
    by_cases hmoves : pc.movesSocket = true
    swap
    · obtain ⟨S, hov⟩ := sameSockets_worker hstep (by simpa using hmoves)
      exact h.same S hh (handedOver_same hi hov) (fun _ => Iff.rfl) id id
    by_cases halloc : ∃ k n, pc = .allocate k n
    · obtain ⟨k, n, rfl⟩ := halloc
      obtain ⟨x, hlive, io, rfl, hio, rfl, rfl⟩ := allocate_step_ok hq hC
      exact h.allocate hm hi hpc hlive hio rfl hh
    cases hstep with
    | closed _ hc => exact h.close hm hpc hc hh (handedOver_same hi rfl)
    | acceptClosed _ hc => exact h.close hm hpc.2 hc hh (handedOver_same hi rfl)
    | allocated | noMemory => exact absurd ⟨_, _, rfl⟩ halloc
    | associated hc =>
      obtain ⟨-, _, -, -, rfl⟩ := Shared.associate_true hc
      exact h.same (.refl _) hh (handedOver_same hi rfl) (fun _ => Iff.rfl) id id
    | associateFailed hc => exact h.associateFailed hm hi hpc hc hh
    | created hc | createFailed hc => exact h.createSocket hm hi hc rfl hh
    | _ => cases hmoves

/-! ## The steps of `main` -/

theorem sameSockets_main {n : ℕ} {m m' : MainPc} {ans : Answer} {ws : List WorkerPc}
    (h : MainStep n y m ans y' m' ws) (hm : m.movesSocket = false) :
    SameSockets y.g y'.g ∧ (∀ a, m' ≠ .associate a ∧ m ≠ .associate a) ∧
      (m'.unlistened = true → m.unlistened = true) ∧
      (m'.unaccepted = true → m.unaccepted = true) := by
  have hend : ∀ g : Globals, SameSockets g g.endServer := by
    intro g
    constructor <;> intros <;> rfl
  have hiocp : ∀ b, SameSockets y.g (y.g.setIocp b) := by
    intro b
    constructor <;> intros <;> rfl
  cases h with
  | portCreated => exact ⟨hiocp true, fun a => ⟨nofun, nofun⟩, fun _ => rfl, nofun⟩
  | portFailed =>
    exact ⟨(hiocp false).trans (hend (y.g.setIocp false)), fun a => ⟨nofun, nofun⟩, nofun, nofun⟩
  | threadCreated | threadsCreated | resolved =>
    exact ⟨.refl _, fun a => ⟨nofun, nofun⟩, fun _ => rfl, nofun⟩
  | threadFailed | resolveFailed | bindFailed | waited =>
    exact ⟨hend y.g, fun a => ⟨nofun, nofun⟩, nofun, nofun⟩
  | bound | quitPosted | quitLost | quitsPosted =>
    exact ⟨.refl _, fun a => ⟨nofun, nofun⟩, nofun, nofun⟩
  | configured => exact ⟨sameSockets_touch _, fun a => ⟨nofun, nofun⟩, nofun, fun _ => rfl⟩
  | @ioctlFailed a =>
    exact ⟨(sameSockets_touch a).trans (hend (y.g.touch a)), fun a => ⟨nofun, nofun⟩, nofun, nofun⟩
  | acceptEx hc =>
    obtain ⟨a, -, -, -, rfl⟩ := Shared.acceptEx_cases hc
    exact ⟨sameSockets_start y _ _ _ _, fun a => ⟨nofun, nofun⟩, nofun, nofun⟩
  | cleanup =>
    cases y.g.hIocp <;> exact ⟨.refl _, fun a => ⟨nofun, nofun⟩, nofun, nofun⟩
  | listenCreated | listenFailed | allocated | noMemory | associated | associateFailed | created
    | createFailed => cases hm

/-- What `main` does in the startup is done with no worker at an accept. -/
theorem Inv.not_handedOver (h : Inv s) (hst : s.main.startup = true) : ¬ s.HandedOver := by
  rintro ⟨w, hw, hov⟩
  rw [(h.startup hst).2 w hw] at hov
  cases hov

/-- The listening socket. -/
theorem Owned.listenSocket {ok : Bool} {m : MainPc} (h : Owned s) (hm : s.main = .listenSocket)
    (hm' : m = .bindListen ∨ m = .cleanup) {g' : Globals}
    (hg : SameSockets ((s.y.g.createSocket ok).1.setListen (s.y.g.createSocket ok).2) g')
    (hh : Handing { s with y := s.y.setG g', main := m }) :
    Owned { s with y := s.y.setG g', main := m } := by
  have hlisten : s.y.g.sdListen = none := h.unlistened (hm ▸ rfl)
  have hassoc : ∀ a, m = .associate a ↔ s.main = .associate a := by
    intro a
    rw [hm]
    rcases hm' with rfl | rfl <;> simp
  refine ⟨(h.toSocketsOwned.listenSocket hlisten hassoc).same hg (fun _ => Iff.rfl) Iff.rfl, hh,
    fun hpc => ?_, fun hpc => ?_⟩
  all_goals rcases hm' with rfl | rfl <;> cases hpc

/-- The new listening context is no client, and has no `SocketAccept` yet. -/
theorem Owned.main_allocate {c : Addr} {g' : Globals} (h : Owned s) (hm : s.main = .allocate)
    (hlive : s.y.g.live c = false)
    (hg : (ctxtAllocate s.y.g.sdListen .clientIoAccept (.ok c) s.y.g).1 = g')
    (hh : Handing { s with y := s.y.setG g', main := .associate c }) :
    Owned { s with y := s.y.setG g', main := .associate c } := by
  have hlisten : s.y.g.pCtxtListenSocket = none := (h.handing.inv.mainOk hm rfl).1
  have hassoc : ∀ a, s.main ≠ .associate a := by
    intro a
    rw [hm]
    exact nofun
  refine ⟨h.toSocketsOwned.allocateListen hlisten hlive hassoc hg, hh, fun hpc => ?_, fun hpc => ?_⟩
  all_goals cases hpc

/-- What the association leaves alone. -/
theorem associate_sockets {sd : Option Socket} {c : Addr} {ok : Bool}
    (h : y.associate sd c ok = some y') : y'.g.closed = y.g.closed ∧
      y'.g.sockets = y.g.sockets ∧ y'.g.sdListen = y.g.sdListen ∧ y'.g.ctxt = y.g.ctxt ∧
      (∀ b, b ≠ c → y'.g.live b = y.g.live b) ∧ (ok = false → y'.g.live c = false) := by
  cases ok with
  | true =>
    obtain ⟨-, _, -, -, rfl⟩ := Shared.associate_true h
    exact ⟨rfl, rfl, rfl, rfl, fun _ _ => rfl, by intro h; cases h⟩
  | false =>
    obtain ⟨-, rfl⟩ := Shared.associate_false h
    exact ⟨rfl, rfl, rfl, rfl, fun b hb => Function.update_of_ne hb ..,
      fun _ => Function.update_self ..⟩

/-- The listening context is registered, or freed. -/
theorem Owned.main_associate {c : Addr} {ok : Bool} {y' : Shared} {m : MainPc} {g' : Globals}
    (h : Owned s) (hm : s.main = .associate c) (hc : s.y.associate s.y.g.sdListen c ok = some y')
    (hm' : m = .ioctl ∨ m = .cleanup)
    (hg : SameSockets (y'.g.setCtxtListenSocket (if ok then some c else none)) g')
    (hh : Handing { s with y := y'.setG g', main := m }) :
    Owned { s with y := y'.setG g', main := m } := by
  have hI := h.handing.handed c (.inl hm)
  have hlisten : s.y.g.pCtxtListenSocket = none := (h.handing.inv.mainOk hm rfl).1
  obtain ⟨hclosed, hsockets, hsdl, hctxt, hlive, hdead⟩ := associate_sockets hc
  have hacc : (s.y.g.io c).bind PerIoContext.socketAccept = none := by
    rw [hI.io]
    rfl
  have hacc' : (y'.g.setCtxtListenSocket (if ok then some c else none)).acceptSocket = none := by
    cases ok with
    | true =>
      show (Globals.io y'.g c).bind PerIoContext.socketAccept = none
      rw [io_congr hctxt, hacc]
    | false => rfl
  have hassoc : ∀ a, m ≠ .associate a := by
    rintro a rfl
    rcases hm' with hm' | hm' <;> cases hm'
  have hO : Globals.SocketsOwned s.y.g (.associate c) s.HandedOver := hm ▸ h.toSocketsOwned
  have hO' : Globals.SocketsOwned (y'.g.setCtxtListenSocket (if ok then some c else none)) m
      s.HandedOver := by
    refine hO.associateListen hlisten hacc hclosed hsockets hsdl hctxt hlive ?_ hassoc
    cases ok with
    | true => exact .inl rfl
    | false => exact .inr ⟨rfl, hdead rfl⟩
  refine ⟨hO'.same hg (fun _ => Iff.rfl) Iff.rfl, hh, fun hpc => ?_,
    fun hpc => hg.acceptSocket.trans hacc'⟩
  rcases hm' with rfl | rfl <;> cases hpc

/-- The first accept socket. -/
theorem Owned.main_createSocket {ok : Bool} {y' : Shared} {m : MainPc} {g' : Globals} (h : Owned s)
    (hm : s.main = .createSocket) (hc : s.y.createAccept ok = some y')
    (hm' : m = .acceptEx ∨ m = .cleanup) (hg : SameSockets y'.g g')
    (hh : Handing { s with y := y'.setG g', main := m }) :
    Owned { s with y := y'.setG g', main := m } := by
  have hover : ¬ s.HandedOver := h.handing.inv.not_handedOver (hm ▸ rfl)
  have hacc : s.y.g.acceptSocket = none := h.unaccepted (hm ▸ rfl)
  have hassoc : ∀ a, m = .associate a ↔ s.main = .associate a := by
    intro a
    rw [hm]
    rcases hm' with rfl | rfl <;> exact iff_of_false nofun nofun
  obtain ⟨k, io, hk, hio, rfl⟩ := Shared.createAccept_cases hc
  refine ⟨.same (h.toSocketsOwned.createAccept hk hio (fun sd hx => nomatch hacc.symm.trans hx.2)
    hassoc hover rfl) hg (fun _ => Iff.rfl) Iff.rfl, hh, fun hpc => ?_, fun hpc => ?_⟩
  all_goals rcases hm' with rfl | rfl <;> cases hpc

/-- **A step of `main`.** -/
theorem Owned.main {ans : Answer} (h : Owned s) (hs : s.step (.main ans) = some s')
    (hC : (Action.main ans).HeapOk) : Owned s' := by
  have hh := h.handing.step hs (action_gives hC)
  have hend : ∀ g : Globals, SameSockets g g.endServer := by
    intro g
    constructor <;> intros <;> rfl
  cases step_cases hs with
  | @main _ y' pc' ws hq =>
    have hstep := MainPc.step_cases hq
    by_cases hmoves : s.main.movesSocket = true
    swap
    · obtain ⟨S, hassoc, hl, ha⟩ := sameSockets_main hstep (by simpa using hmoves)
      refine h.same S hh ?_ (fun a => iff_of_false (hassoc a).1 (hassoc a).2) hl ha
      constructor
      · rintro ⟨w, hw, hov⟩
        rcases List.mem_append.mp hw with hw | hw
        · exact ⟨w, hw, hov⟩
        · rw [hstep.workers w hw] at hov
          cases hov
      · rintro ⟨w, hw, hov⟩
        exact ⟨w, List.mem_append_left ws hw, hov⟩
    generalize hm : s.main = m at hstep hmoves
    cases hstep with
    | listenCreated =>
      rw [List.append_nil] at hh ⊢
      exact h.listenSocket hm (.inl rfl) (.refl _) hh
    | listenFailed =>
      rw [List.append_nil] at hh ⊢
      exact h.listenSocket hm (.inr rfl) (hend _) hh
    | @allocated x a _ hx ha =>
      rw [List.append_nil] at hh ⊢
      obtain ⟨c, rfl⟩ := hC
      obtain rfl := Option.some.inj ha
      exact h.main_allocate hm (by simpa using hx) rfl hh
    | noMemory =>
      obtain ⟨c, hc⟩ := hC
      cases hc
    | associated hc =>
      rw [List.append_nil] at hh ⊢
      exact h.main_associate hm hc (.inl rfl) (.refl _) hh
    | @associateFailed c y₁ hc =>
      rw [List.append_nil] at hh ⊢
      have hg : SameSockets (y₁.g.setCtxtListenSocket (if false then some c else none))
        (y₁.g.setCtxtListenSocket none).endServer := hend _
      have h' := h.main_associate hm hc (.inr rfl) hg hh
      exact h'
    | created hc =>
      rw [List.append_nil] at hh ⊢
      exact h.main_createSocket hm hc (.inl rfl) (.refl _) hh
    | createFailed hc =>
      rw [List.append_nil] at hh ⊢
      exact h.main_createSocket hm hc (.inr rfl) (hend _) hh
    | _ => cases hmoves

theorem Owned.step {b : Action} (h : Owned s) (hs : s.step b = some s') (hC : b.HeapOk) :
    Owned s' := by
  cases b with
  | worker i ans => exact h.worker hs hC
  | main ans => exact h.main hs hC
  | complete i t ok =>
    have hh := h.handing.step hs (action_gives hC)
    cases step_cases hs with
    | complete hy =>
      exact h.same (sameSockets_complete hy) hh Iff.rfl (fun _ => Iff.rfl) id id
  | ctrlEnd | ctrlEvent =>
    have hh := h.handing.step hs (action_gives hC)
    cases step_cases hs
    refine h.same ?_ hh Iff.rfl (fun _ => Iff.rfl) id id
    constructor <;> intros <;> rfl

theorem owned_initial (n : ℕ) (v : Bool) : Owned (initial n v) :=
  ⟨.initial _ _, handing_initial n v, fun _ => rfl, fun _ => rfl⟩

/-- **Ownership of the sockets.** In every run in which the heap gives what it is asked for, no socket
is closed twice, and while no worker is in the accept case each open socket is referenced once: by
`g_sdListen`, by `SocketAccept` of the listening context, or by the context of one live client. -/
theorem socket_one_owner (hs : machine.ReachableIf (fun _ b => b.HeapOk) s) :
    s.y.g.closed.Nodup ∧ ((∀ pc ∈ s.workers, pc.inAccept = false) →
      ∀ sd < s.y.g.sockets, sd ∉ s.y.g.closed → ∃! r, s.Refers r sd) := by
  have h : Owned s := by
    refine hs.invariant (P := Owned) ?_ fun s b s' _ h hC hstep => h.step hstep hC
    rintro _ ⟨n, v, rfl⟩
    exact owned_initial n v
  refine ⟨h.nodup, fun hacc sd hlt hopen => ?_⟩
  have hover : ¬ s.HandedOver := by
    rintro ⟨w, hw, hov⟩
    have hin := (WorkerPc.handedOver_spec hov).2
    rw [hacc w hw] at hin
    cases hin
  have hrefers : ∀ r, s.Refers r sd ↔ s.y.g.Owns s.main s.HandedOver (some r) sd := by
    intro r
    cases r with
    | sdListen => exact Iff.rfl
    | socketAccept => exact (and_iff_right hover).symm
    | socket a => simp only [Refers, Globals.Owns, ClientContext, and_assoc]
  obtain ⟨o, ho, huniq⟩ := h.holding.existsUnique hlt
  cases o with
  | none => exact absurd ho hopen
  | some r =>
    refine ⟨r, (hrefers r).mpr ho, fun r' hr' => ?_⟩
    exact Option.some.inj (huniq (some r') ((hrefers r').mp hr'))

/-- Two clients, of which the first has disconnected: its socket is closed, and that of the second is
referenced once. -/
theorem socket_one_owner_two : ∃ s, machine.ReachableIf (fun _ b => b.HeapOk) s ∧
    s.y.g.closed = [1] ∧ s.y.g.sockets = 4 ∧ ∃! r, s.Refers r 2 := by
  obtain ⟨s, hs, hclosed, hsockets, hw⟩ : ∃ s, machine.run (initial 1 false) (startup .success ++
      [.complete 0 (.data [65] []) true, .worker 0 (.packet 0), .worker 0 .none, .worker 0 .none,
        .worker 0 (.call true), .worker 0 (.heap (.ok 1)), .worker 0 (.call true), .worker 0 .none,
        .worker 0 .none, .worker 0 (.overlapped .success), .worker 0 (.call true),
        .worker 0 (.overlapped .success),
        .complete 1 (.data [66] []) true, .worker 0 (.packet 0), .worker 0 .none, .worker 0 .none,
        .worker 0 (.call true), .worker 0 (.heap (.ok 2)), .worker 0 (.call true), .worker 0 .none,
        .worker 0 .none, .worker 0 (.overlapped .success), .worker 0 (.call true),
        .worker 0 (.overlapped .success),
        .complete 0 (.count 1) false, .worker 0 (.packet 0), .worker 0 .none, .worker 0 .none,
        .worker 0 .none]) = some s ∧ s.y.g.closed = [1] ∧ s.y.g.sockets = 4 ∧
      s.workers = [.getStatus] :=
    ⟨_, rfl, rfl, rfl, rfl⟩
  have hr : machine.ReachableIf (fun _ b => b.HeapOk) s := by
    refine .run (.init ⟨1, false, rfl⟩) (Machine.allSteps_of_forall ?_ _) hs
    simp [startup, Action.HeapOk]
  refine ⟨s, hr, hclosed, hsockets, (socket_one_owner hr).2 ?_ 2 ?_ ?_⟩
  · rw [hw]
    simp [WorkerPc.inAccept]
  · rw [hsockets]
    decide
  · rw [hclosed]
    decide

end Server

end SelfStudy.Iocp
