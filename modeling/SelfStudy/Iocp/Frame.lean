import SelfStudy.Iocp.Server

/-!
# What the functions leave alone

Every function of the server works on one context, and on the links of the list. `Keeps g g' c` says
that apart from the context `c` the sockets and the I/O contexts are in `g'` what they were in `g`;
`Within` says so of a function that neither frees nor closes anything.
-/

namespace SelfStudy.Iocp

namespace Globals

/-- `g'` has the sockets and I/O contexts of `g`, except those of `c`. -/
structure Keeps (g g' : Globals) (c : Option Addr) : Prop where
  pCtxtListenSocket : g'.pCtxtListenSocket = g.pCtxtListenSocket
  sdListen : g'.sdListen = g.sdListen
  bEndServer : g'.bEndServer = g.bEndServer
  serial : g'.serial = g.serial
  serialAt : ∀ b, (g'.ctxt b).serial = (g.ctxt b).serial
  socket : ∀ b, c ≠ some b → (g'.ctxt b).socket = (g.ctxt b).socket
  pIOContext : ∀ b, c ≠ some b → (g'.ctxt b).pIOContext = (g.ctxt b).pIOContext

/-- `Keeps`, with the blocks, the port and the calls of `CloseClient` as they were. -/
structure Within (g g' : Globals) (c : Option Addr) : Prop extends Keeps g g' c where
  live : g'.live = g.live
  hIocp : g'.hIocp = g.hIocp
  closeCalls : g'.closeCalls = g.closeCalls

section

variable {g g' g'' : Globals} {c : Option Addr} {a : Addr}

theorem Keeps.trans (h : Keeps g g' c) (h' : Keeps g' g'' c) : Keeps g g'' c where
  pCtxtListenSocket := h'.pCtxtListenSocket.trans h.pCtxtListenSocket
  sdListen := h'.sdListen.trans h.sdListen
  bEndServer := h'.bEndServer.trans h.bEndServer
  serial := h'.serial.trans h.serial
  serialAt b := (h'.serialAt b).trans (h.serialAt b)
  socket b hb := (h'.socket b hb).trans (h.socket b hb)
  pIOContext b hb := (h'.pIOContext b hb).trans (h.pIOContext b hb)

theorem Keeps.io (h : Keeps g g' c) {b : Addr} (hb : c ≠ some b) : g'.io b = g.io b := by
  unfold Globals.io
  rw [h.pIOContext b hb]

theorem Within.refl (g : Globals) (c : Option Addr) : Within g g c := by
  constructor <;> [constructor; rfl; rfl; rfl] <;> intros <;> rfl

theorem Within.trans (h : Within g g' c) (h' : Within g' g'' c) : Within g g'' c where
  toKeeps := h.toKeeps.trans h'.toKeeps
  live := h'.live.trans h.live
  hIocp := h'.hIocp.trans h.hIocp
  closeCalls := h'.closeCalls.trans h.closeCalls

theorem Within.weaken (h : Within g g' none) (c : Option Addr) : Within g g' c where
  toKeeps :=
    { h.toKeeps with
      socket := fun b _ => h.socket b nofun
      pIOContext := fun b _ => h.pIOContext b nofun }
  live := h.live
  hIocp := h.hIocp
  closeCalls := h.closeCalls

theorem within_enter : Within g g.enter c := by
  constructor <;> [constructor; rfl; rfl; rfl] <;> intros <;> rfl

theorem within_leave : Within g g.leave c := by
  constructor <;> [constructor; rfl; rfl; rfl] <;> intros <;> rfl

theorem within_touch (a : Addr) : Within g (g.touch a) c := by
  constructor <;> [constructor; rfl; rfl; rfl] <;> intros <;> rfl

theorem within_createSocket (ok : Bool) : Within g (g.createSocket ok).1 c := by
  cases ok <;> constructor <;> first | rfl | (constructor <;> intros <;> rfl)

/-- A write to the context `a`. -/
theorem within_modify {f : PerSocketContext → PerSocketContext}
    (hf : ∀ x, (f x).serial = x.serial) : Within g (g.modify a f) (some a) := by
  have hne : ∀ b, some a ≠ some b → b ≠ a := fun b h e => h (congrArg some e.symm)
  constructor <;> [constructor; rfl; rfl; rfl] <;> try rfl
  · intro b
    simp only [ctxt_modify_serial, hf, ite_self]
  · intro b hb
    rw [ctxt_modify_socket, if_neg (hne b hb)]
  · intro b hb
    rw [ctxt_modify_pIOContext, if_neg (hne b hb)]

/-- A write to the links of a context. -/
theorem within_modify_links {f : PerSocketContext → PerSocketContext}
    (hf : ∀ x, (f x).serial = x.serial ∧ (f x).socket = x.socket ∧
      (f x).pIOContext = x.pIOContext) : Within g (g.modify a f) c := by
  constructor <;> [constructor; rfl; rfl; rfl] <;> try rfl
  · intro b
    simp only [ctxt_modify_serial, hf, ite_self]
  · intro b _
    simp only [ctxt_modify_socket, hf, ite_self]
  · intro b _
    simp only [ctxt_modify_pIOContext, hf, ite_self]

theorem within_setCtxtList (p : Option Addr) : Within g (g.setCtxtList p) c := by
  constructor <;> [constructor; rfl; rfl; rfl] <;> intros <;> rfl

theorem within_modifyIo (a : Addr) (f : PerIoContext → PerIoContext) :
    Within g (g.modifyIo a f) (some a) := within_modify fun _ => rfl

theorem io_congr (h : g'.ctxt = g.ctxt) (a : Addr) : g'.io a = g.io a := by
  rw [io, h, io]

/-- A block that `CtxtAllocate` has freed again has no I/O context. -/
@[simp] theorem io_noIoContext (sd : Option Socket) (op : IoOperation) (a : Addr) :
    (ctxtAllocate sd op (.noIoContext a) g).1.io a = none := by
  simp [ctxtAllocate, io]

@[simp] theorem live_noIoContext (sd : Option Socket) (op : IoOperation) (a : Addr) :
    (ctxtAllocate sd op (.noIoContext a) g).1.live a = false := by
  simp [ctxtAllocate]

theorem io_modifyIo (a b : Addr) (f : PerIoContext → PerIoContext) :
    (g.modifyIo a f).io b = if b = a then (g.io b).map f else g.io b := by
  simp only [io, modifyIo, ctxt_modify_pIOContext]
  split_ifs
  · cases (g.ctxt b).pIOContext <;> rfl
  · rfl

theorem io_modifyIo_self {io : PerIoContext} (h : g.io a = some io) (f : PerIoContext → PerIoContext) :
    (g.modifyIo a f).io a = some (f io) := by
  rw [io_modifyIo, if_pos rfl, h]
  rfl

@[simp] theorem socket_modifyIo (a b : Addr) (f : PerIoContext → PerIoContext) :
    ((g.modifyIo a f).ctxt b).socket = (g.ctxt b).socket := by
  simp only [modifyIo, ctxt_modify_socket, ite_self]

end

end Globals

open Globals

variable {g g' : Globals} {a : Addr}

theorem within_ctxtListLink (a : Addr) (c : Option Addr) : Within g (ctxtListLink a g) c := by
  unfold ctxtListLink
  split
  · refine .trans (within_modify_links ?_) (within_setCtxtList _)
    exact fun _ => ⟨rfl, rfl, rfl⟩
  · refine .trans (.trans (within_setCtxtList _) (within_modify_links ?_)) (within_modify_links ?_)
    all_goals exact fun _ => ⟨rfl, rfl, rfl⟩

theorem within_ctxtListAddTo (a : Addr) (c : Option Addr) : Within g (ctxtListAddTo a g) c :=
  (within_enter.trans (within_ctxtListLink a c)).trans within_leave

theorem within_ctxtListRelink (a : Addr) (c : Option Addr) : Within g (ctxtListRelink a g) c := by
  unfold ctxtListRelink
  split
  · exact within_setCtxtList _
  · refine .trans (within_modify_links ?_) (within_setCtxtList _)
    exact fun _ => ⟨rfl, rfl, rfl⟩
  · apply within_modify_links
    exact fun _ => ⟨rfl, rfl, rfl⟩
  · refine .trans (within_modify_links ?_) (within_modify_links ?_)
    all_goals exact fun _ => ⟨rfl, rfl, rfl⟩

theorem keeps_free (a : Addr) (c : Option Addr) : Keeps g (g.free a) c := by
  constructor <;> intros <;> rfl

theorem keeps_closesocket (sd : Option Socket) (c : Option Addr) :
    Keeps g (g.closesocket sd) c := by
  constructor <;> intros <;> rfl

theorem keeps_closeSockets (a : Addr) (io : PerIoContext) :
    Keeps g (g.closeSockets a io) (some a) := by
  have hr : Keeps g (g.enter.recordClose a) (some a) := by
    constructor <;> intros <;> rfl
  unfold closeSockets
  apply Keeps.trans (.trans (.trans hr (keeps_closesocket _ _)) (within_modifyIo a _).toKeeps)
  apply Keeps.trans (keeps_closesocket _ _) (within_modify _).toKeeps
  exact fun _ => rfl

/-- **Inversion.** `CloseClient` comes back if the context has an I/O context and, at shutdown, no
operation on it is outstanding. -/
theorem closeClient_cases (h : closeClient a g = some g') : ∃ io, g.io a = some io ∧
    freesIoContexts (g.closeSockets a io).bEndServer
      ((g.closeSockets a io).ctxt a).pIOContext = true ∧
    g' = ((ctxtListRelink a ((g.closeSockets a io).enter.touch a)).free a).leave.leave := by
  unfold closeClient at h
  cases hio : g.io a with
  | none => rw [hio] at h; cases h
  | some io =>
    rw [hio] at h
    obtain ⟨g₂, hd, rfl⟩ := Option.map_eq_some_iff.mp h
    obtain ⟨hfree, hd⟩ := Option.ite_none_right_eq_some.mp hd
    exact ⟨io, rfl, hfree, Option.some.inj hd ▸ rfl⟩

/-- `CloseClient` frees the context, and records that it was called. -/
theorem closeClient_spec (h : closeClient a g = some g') : Keeps g g' (some a) ∧
    g'.live = Function.update g.live a false ∧ g'.hIocp = g.hIocp ∧
    g'.closeCalls = g.closeCalls ++ [(g.ctxt a).serial] := by
  obtain ⟨io, -, -, rfl⟩ := closeClient_cases h
  have hW := within_ctxtListRelink (g := (g.closeSockets a io).enter.touch a) a (some a)
  refine ⟨?_, ?_, hW.hIocp, hW.closeCalls⟩
  · have hK := (keeps_closeSockets a io).trans
      ((within_enter.trans (within_touch a)).trans hW).toKeeps
    exact (hK.trans (keeps_free a _)).trans (within_leave.trans within_leave).toKeeps
  · show Function.update (ctxtListRelink a _).live a false = _
    rw [hW.live]
    rfl

namespace Shared

variable {y y' : Shared} {sd : Option Socket}

/-- A socket that `CreateIoCompletionPort` accepts has no key yet. -/
theorem associate_true (h : y.associate sd a true = some y') : y.g.hIocp = true ∧
    ∃ s, sd = some s ∧ y.key s = none ∧
      y' = { y with key := Function.update y.key s (some a) } := by
  obtain ⟨hI, h⟩ := Option.ite_none_right_eq_some.mp h
  rw [if_pos rfl] at h
  obtain ⟨s, hs, h⟩ := Option.bind_eq_some_iff.mp h
  obtain ⟨hk, h⟩ := Option.ite_none_right_eq_some.mp h
  exact ⟨hI, s, hs, hk, (Option.some.inj h).symm⟩

/-- A failed association takes the handle of the port with it. -/
theorem associate_false (h : y.associate sd a false = some y') :
    y.g.hIocp = true ∧ y' = y.setG (((y.g.setIocp false).touch a).free a) := by
  obtain ⟨hI, h⟩ := Option.ite_none_right_eq_some.mp h
  exact ⟨hI, (Option.some.inj h).symm⟩

/-- An overlapped call writes to the I/O context it was given. -/
theorem within_start (sd : Option Socket) (a : Addr) (call : Call) (r : CallResult) :
    Within y.g (y.start sd a call r).g (some a) := by
  unfold start
  split_ifs
  · exact within_modifyIo a _
  · exact .refl _ _

theorem start_port (sd : Option Socket) (a : Addr) (call : Call) (r : CallResult) :
    (y.start sd a call r).port = y.port := by
  unfold start
  split_ifs <;> rfl

theorem start_key (sd : Option Socket) (a : Addr) (call : Call) (r : CallResult) :
    (y.start sd a call r).key = y.key := by
  unfold start
  split_ifs <;> rfl

/-- `CreateAcceptSocket` writes to the listening context. -/
theorem within_createAccept {ok : Bool} (h : y.createAccept ok = some y') :
    ∃ a, y.g.pCtxtListenSocket = some a ∧ Within y.g y'.g (some a) ∧ y'.port = y.port := by
  obtain ⟨a, -, ha, -, rfl⟩ := createAccept_cases h
  exact ⟨a, ha, (within_createSocket ok).trans (within_modifyIo a _), rfl⟩

theorem within_acceptEx {r : CallResult} (h : y.acceptEx r = some y') :
    ∃ a, y.g.pCtxtListenSocket = some a ∧ Within y.g y'.g (some a) ∧ y'.port = y.port := by
  obtain ⟨a, -, ha, -, rfl⟩ := acceptEx_cases h
  exact ⟨a, ha, within_start _ a _ r, start_port _ a _ r⟩

end Shared

end SelfStudy.Iocp
